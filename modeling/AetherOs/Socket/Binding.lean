import AetherOs.Socket.Steps

/-! # Sockets and their connections -/

namespace AetherOs.Socket

open Base Tcp Option SockTable

variable {s s' : SockTable} {c : SockCall} {d i now : ℕ} {sd : ℤ}

/-! ## The observer -/

def taken (s s' : SockTable) (i : ℕ) : Bool := !(s.tcp.sockets i).used && (s'.tcp.sockets i).used

def fresh (s s' : SockTable) (d : ℕ) : Bool := !(s.socks d).used && (s'.socks d).used

def assigned (c : SockCall) (s s' : SockTable) (i : ℕ) : Option ℕ :=
  match c with
  | .connect sd _ _ => if taken s s' i then some sd.toNat else none
  | .listen sd backlog =>
    if (sockListen sd backlog s).1 = 0 ∧ (s'.socks sd.toNat).tcpSock = i then some sd.toNat else none
  | .arrive _ _ _ => (sockAlloc s).filter fun d => (s'.socks d).used && (s'.socks d).tcpSock = i
  | _ => none

structure Tracked where
  table : SockTable
  madeFor : ℕ → Option ℕ

def Tracked.step (x : Tracked) (c : SockCall) : Tracked where
  table := sockExec c x.table
  madeFor i :=
    match assigned c x.table (sockExec c x.table) i with
    | some d => some d
    | none =>
      if taken x.table (sockExec c x.table) i then none
      else (x.madeFor i).filter fun d => !fresh x.table (sockExec c x.table) d

def Tracked.init (ip : ℕ) (link : ℕ → Bool) : Tracked := ⟨.init ip link, fun _ => none⟩

def Foreign (x : Tracked) (d i : ℕ) : Prop := (x.table.tcp.sockets i).used = true ∧ x.madeFor i ≠ some d

def SockTable.withSlots (s : SockTable) (f : ℕ → TcpSocket) : SockTable := { s with tcp := { s.tcp with sockets := f } }

structure Isolated (x : Tracked) : Prop where
  distinct : ∀ d e i, Designates x.table d i → Designates x.table e i → (x.table.tcp.sockets i).used = true → d = e
  writes : ∀ (d : ℕ) u i, Foreign x d i → (sockUse d u x.table).2.tcp.sockets i = x.table.tcp.sockets i
  reads : ∀ (d : ℕ) u f, (∀ i, ¬ Foreign x d i → f i = x.table.tcp.sockets i) →
    (sockUse d u (x.table.withSlots f)).1 = (sockUse d u x.table).1 ∧
      (sockUse d u (x.table.withSlots f)).2.tcp.sent = (sockUse d u x.table).2.tcp.sent

/-! ## What is asked of the steps -/

def Unclaimed (s : SockTable) (i : ℕ) : Prop := (∀ d, ¬ Designates s d i) ∧ ∀ w ∈ s.connecting, w.slot ≠ i

def Unawaited (s : SockTable) (d : ℕ) : Prop := ∀ w ∈ s.connecting, w.sd ≠ d

def Admissible (c : SockCall) (s : SockTable) : Prop :=
  match c with
  | .create _ _ _ _ => ∀ d, sockAlloc s = some d → Unawaited s d
  | .connect _ _ _ => ∀ i, findFree s.tcp = some i → Unclaimed s i
  | .listen sd _ => ∀ d i, sockGet sd s = some d → listenSlot (listenPort d s).1 s.tcp = some i → Unclaimed s i
  | .arrive src bytes _ => ∀ seg, parseSegment bytes = some seg →
    (findConnected src seg s.tcp = none → hasFlag seg.flags tcpSyn = true → hasFlag seg.flags tcpAck = false →
      ∀ i, findFree s.tcp = some i → Unclaimed s i) ∧
    (∀ i, findConnected src seg s.tcp = some i → (s.tcp.sockets i).state = .synRcvd →
      ∀ d, sockAlloc s = some d → Unawaited s d)
  | _ => True

/-! ## The invariant -/

structure Bound (x : Tracked) : Prop where
  designated : ∀ d i, Designates x.table d i → x.madeFor i = some d
  awaited : ∀ w ∈ x.table.connecting, x.madeFor w.slot = some w.sd
  halfOpen : ∀ i, (x.table.tcp.sockets i).used = true → (x.table.tcp.sockets i).state = .synRcvd → x.madeFor i = none

variable {x : Tracked}

theorem bound_init {ip : ℕ} {link : ℕ → Bool} : Bound (.init ip link) where
  designated _ _ h := absurd h.1 (by simp [Tracked.init, init, Sock.zero])
  awaited _ h := absurd h List.not_mem_nil
  halfOpen _ _ _ := rfl

theorem madeFor_step (hassigned : assigned c x.table (x.step c).table i = none)
    (htaken : taken x.table (x.step c).table i = false) (hfresh : fresh x.table (x.step c).table d = false)
    (h : x.madeFor i = some d) : (x.step c).madeFor i = some d := by
  change (match assigned c x.table (x.step c).table i with | some d => some d | none => _) = some d
  rw [hassigned]
  dsimp only
  change (if taken x.table (x.step c).table i then none else _) = some d
  rw [htaken, if_neg Bool.false_ne_true, h]
  change Option.filter (fun d => !fresh x.table (x.step c).table d) (some d) = some d
  rw [filter_some, hfresh, if_pos (by rfl)]

theorem madeFor_step_none (hassigned : assigned c x.table (x.step c).table i = none)
    (h : taken x.table (x.step c).table i ∨ x.madeFor i = none) : (x.step c).madeFor i = none := by
  change (match assigned c x.table (x.step c).table i with | some d => some d | none => _) = none
  rw [hassigned]
  dsimp only
  change (if taken x.table (x.step c).table i then none else _) = none
  split_ifs with htaken
  · rfl
  · rw [h.resolve_left htaken]
    rfl

theorem madeFor_step_assigned (h : assigned c x.table (x.step c).table i = some d) : (x.step c).madeFor i = some d := by
  change (match assigned c x.table (x.step c).table i with | some d => some d | none => _) = some d
  rw [h]

theorem taken_eq_false (h : (s'.tcp.sockets i).used → (s.tcp.sockets i).used) : taken s s' i = false := by
  rw [taken]
  cases hused : (s'.tcp.sockets i).used with
  | false => exact Bool.and_false _
  | true => rw [h hused]; rfl

theorem fresh_eq_false (h : (s'.socks d).used → (s.socks d).used) : fresh s s' d = false := by
  rw [fresh]
  cases hused : (s'.socks d).used with
  | false => exact Bool.and_false _
  | true => rw [h hused]; rfl

theorem assigned_arrive {src : ℕ} {bytes : List UInt8} (h : ∀ d, (s'.socks d).used = (s.socks d).used) :
    assigned (.arrive src bytes now) s s' i = none := by
  rw [assigned]
  cases halloc : sockAlloc s with
  | none => rfl
  | some d =>
    rw [filter_some, h, unused_of_sockAlloc halloc]
    rfl

/-! ## Isolation -/

theorem sockets_sockUse (u : Use) (h : ∀ e, sockGet sd s = some e → getSocket (s.socks e).tcpSock s.tcp ≠ some i) :
    (sockUse sd u s).2.tcp.sockets i = s.tcp.sockets i := by
  have hclose : ∀ e now, sockGet sd s = some e → (closeTcp e now s).tcp.sockets i = s.tcp.sockets i := by
    intro e now hget
    rw [closeTcp]
    split
    · exact sockets_tcpClose_of_ne (h e hget)
    · rfl
  cases u with
  | send data now =>
    dsimp only [sockUse, sockSend]
    cases hget : sockGet sd s with
    | none => rfl
    | some e =>
      dsimp only
      split_ifs
      · rfl
      · rfl
      · exact sockets_tcpSend_of_ne (h e hget)
      · rfl
  | recv len flags =>
    dsimp only [sockUse, sockRecv]
    cases hget : sockGet sd s with
    | none => rfl
    | some e =>
      dsimp only
      split_ifs
      · rfl
      · rfl
      · exact sockets_tcpRecv_of_ne (h e hget)
      · rfl
      · rfl
      · rfl
  | shutdown now =>
    dsimp only [sockUse, sockShutdown]
    cases hget : sockGet sd s with
    | none => rfl
    | some e => exact hclose e now hget
  | close now =>
    dsimp only [sockUse, sockClose]
    cases hget : sockGet sd s with
    | none => rfl
    | some e => exact hclose e now hget

theorem sockUse_congr (u : Use) (hsocks : s'.socks = s.socks) (hlink : s'.tcp.link = s.tcp.link)
    (hsent : s'.tcp.sent = s.tcp.sent)
    (h : ∀ e, sockGet sd s = some e → ∀ i : ℕ, (s.socks e).tcpSock = i → s'.tcp.sockets i = s.tcp.sockets i) :
    (sockUse sd u s').1 = (sockUse sd u s).1 ∧ (sockUse sd u s').2.tcp.sent = (sockUse sd u s).2.tcp.sent := by
  have hget' : sockGet sd s' = sockGet sd s := by rw [sockGet, sockGet, hsocks]
  have hclose : ∀ e now, sockGet sd s = some e → (closeTcp e now s').tcp.sent = (closeTcp e now s).tcp.sent := by
    intro e now hget
    rw [closeTcp, closeTcp, hsocks]
    split
    · exact sent_tcpClose_congr hlink hsent (h e hget)
    · exact hsent
  cases u with
  | send data now =>
    dsimp only [sockUse, sockSend]
    rw [hget']
    cases hget : sockGet sd s with
    | none => exact ⟨rfl, hsent⟩
    | some e =>
      obtain ⟨hres, hpackets⟩ := @tcpSend_congr _ _ now _ hlink hsent data (h e hget)
      dsimp only
      rw [hsocks]
      split_ifs
      · exact ⟨rfl, hsent⟩
      · exact ⟨rfl, hsent⟩
      · exact ⟨by rw [hres], hpackets⟩
      · exact ⟨rfl, hsent⟩
  | recv len flags =>
    dsimp only [sockUse, sockRecv]
    rw [hget']
    cases hget : sockGet sd s with
    | none => exact ⟨rfl, hsent⟩
    | some e =>
      dsimp only
      rw [hsocks]
      split_ifs
      · exact ⟨rfl, hsent⟩
      · exact ⟨rfl, hsent⟩
      · exact tcpRecv_congr hsent (h e hget)
      · exact ⟨rfl, hsent⟩
      · exact ⟨rfl, hsent⟩
      · exact ⟨rfl, hsent⟩
  | shutdown now =>
    dsimp only [sockUse, sockShutdown]
    rw [hget']
    cases hget : sockGet sd s with
    | none => exact ⟨rfl, hsent⟩
    | some e => exact ⟨rfl, hclose e now hget⟩
  | close now =>
    dsimp only [sockUse, sockClose]
    rw [hget']
    cases hget : sockGet sd s with
    | none => exact ⟨rfl, hsent⟩
    | some e => exact ⟨rfl, hclose e now hget⟩

def segmentFrom (port : UInt8) (seq ack : List UInt8) (flags : UInt8) (data : List UInt8) : List UInt8 :=
  [port, 0, 0, 80] ++ seq ++ ack ++ [80, flags, 16, 0, 0, 0, 0, 0] ++ data

def handsOutUnmade (x : Tracked) (c : SockCall) : Bool :=
  let unmade := fun i => (x.madeFor i).isNone
  let unawaited := fun d => x.table.connecting.all fun w => w.sd ≠ d
  match c with
  | .create _ _ _ _ => (sockAlloc x.table).all unawaited
  | .connect _ _ _ => (findFree x.table.tcp).all unmade
  | .listen sd _ => (sockGet sd x.table).all fun d => (listenSlot (listenPort d x.table).1 x.table.tcp).all unmade
  | .arrive _ _ _ => (findFree x.table.tcp).all unmade && (sockAlloc x.table).all unawaited
  | _ => true

section

variable (hbound : Bound x)
include hbound

theorem Bound.step_calm (hcalm : Calm x.table (x.step c).table)
    (hassigned : ∀ i, assigned c x.table (x.step c).table i = none) : Bound (x.step c) := by
  have hkeep : ∀ d i, x.madeFor i = some d → (x.step c).madeFor i = some d := fun d i h =>
    madeFor_step (hassigned i) (taken_eq_false fun hused => (hcalm.tcp i hused).1) (fresh_eq_false (hcalm.used d)) h
  refine ⟨fun d i hdes => hkeep d i ?_, fun w hw => hkeep _ _ (hbound.awaited w (hcalm.connecting w hw)), ?_⟩
  · rcases hcalm.designates d i hdes with hbefore | hwait
    · exact hbound.designated d i hbefore
    · exact hbound.awaited _ hwait
  · intro i hused hstate
    obtain ⟨hbefore, hhalf⟩ := hcalm.tcp i hused
    exact madeFor_step_none (hassigned i) (.inr (hbound.halfOpen i hbefore (hhalf hstate)))

theorem Bound.step_except (hclaim : Unclaimed x.table i)
    (hassigned : ∀ j, j ≠ i → assigned c x.table (x.step c).table j = none)
    (htcp : ∀ j, j ≠ i → (x.step c).table.tcp.sockets j = x.table.tcp.sockets j)
    (hused : ∀ e, ((x.step c).table.socks e).used = (x.table.socks e).used)
    (hdes : ∀ e j, Designates (x.step c).table e j → Designates x.table e j ∨ (x.step c).madeFor j = some e)
    (hwait : ∀ w ∈ (x.step c).table.connecting, w ∈ x.table.connecting ∨ (x.step c).madeFor w.slot = some w.sd)
    (hhalf : ((x.step c).table.tcp.sockets i).used → ((x.step c).table.tcp.sockets i).state = .synRcvd →
      (x.step c).madeFor i = none) : Bound (x.step c) := by
  have hkeep (e j : ℕ) (hj : j ≠ i) (h : x.madeFor j = some e) : (x.step c).madeFor j = some e := by
    refine madeFor_step (hassigned j hj) (taken_eq_false fun h => ?_) (fresh_eq_false fun h => ?_) h
    · exact htcp j hj ▸ h
    · exact hused e ▸ h
  refine ⟨fun e j h => ?_, fun w hw => ?_, fun j hlive hstate => ?_⟩
  · rcases hdes e j h with hbefore | hnew
    · exact hkeep e j (fun hji => hclaim.1 e (hji ▸ hbefore)) (hbound.designated e j hbefore)
    · exact hnew
  · rcases hwait w hw with hbefore | hnew
    · exact hkeep _ _ (hclaim.2 w hbefore) (hbound.awaited w hbefore)
    · exact hnew
  · by_cases hji : j = i
    · subst hji
      exact hhalf hlive hstate
    · rw [htcp j hji] at hlive hstate
      exact madeFor_step_none (hassigned j hji) (.inr (hbound.halfOpen j hlive hstate))

theorem Bound.step_create {domain type protocol : ℤ} {owner : ℕ}
    (hok : Admissible (.create domain type protocol owner) x.table) :
    Bound (x.step (.create domain type protocol owner)) := by
  have hcases : (sockCreate domain type protocol owner x.table).2 = x.table ∨ ∃ d k, sockAlloc x.table = some d ∧
      k.tcpSock = -1 ∧ (sockCreate domain type protocol owner x.table).2 = x.table.setSock d k := by
    rw [sockCreate]
    split_ifs
    · exact .inl rfl
    · exact .inl rfl
    · cases halloc : sockAlloc x.table with
      | none => exact .inl rfl
      | some d => exact .inr ⟨d, _, rfl, rfl, rfl⟩
  rcases hcases with hsame | ⟨d, k, halloc, hslot, hset⟩
  · refine hbound.step_calm ?_ fun _ => rfl
    change Calm x.table (sockCreate domain type protocol owner x.table).2
    rw [hsame]
    exact .refl
  · have htable : (x.step (.create domain type protocol owner)).table = x.table.setSock d k := hset
    have hkeep : ∀ e i, x.madeFor i = some e → e ≠ d →
        (x.step (.create domain type protocol owner)).madeFor i = some e := by
      intro e i h hne
      refine madeFor_step rfl (taken_eq_false ?_) (fresh_eq_false ?_) h
      · rw [htable]
        exact id
      · rw [htable, socks_setSock_of_ne hne]
        exact id
    refine ⟨fun e i hdes => ?_, fun w hw => ?_, fun i hused hstate => ?_⟩
    · rw [htable, Designates] at hdes
      by_cases he : e = d
      · rw [he, socks_setSock_self, hslot] at hdes
        omega
      · rw [socks_setSock_of_ne he] at hdes
        exact hkeep e i (hbound.designated e i hdes) he
    · rw [htable] at hw
      exact hkeep _ _ (hbound.awaited w hw) (hok d halloc w hw)
    · rw [htable] at hused hstate
      exact madeFor_step_none rfl (.inr (hbound.halfOpen i hused hstate))

theorem Bound.step_connect {addr : Option SockAddr} (hok : Admissible (.connect sd addr now) x.table) :
    Bound (x.step (.connect sd addr now)) := by
  rcases sockConnect_cases sd addr now x.table with
    hcalm | ⟨d, i, hget, hfree, hsame, hothers, hused, hstate, hconnecting⟩
  · refine hbound.step_calm hcalm fun j => ?_
    have hfalse : taken x.table (x.step (.connect sd addr now)).table j = false :=
      taken_eq_false fun hused => (hcalm.tcp j hused).1
    rw [assigned, hfalse]
    rfl
  · have htaken : taken x.table (x.step (.connect sd addr now)).table i := by
      change (!(x.table.tcp.sockets i).used && ((sockConnect sd addr now x.table).2.tcp.sockets i).used)
      rw [hused, unused_of_findFree hfree]
      rfl
    have hnew : (x.step (.connect sd addr now)).madeFor i = some d := by
      refine madeFor_step_assigned ?_
      rw [assigned, htaken, (sockGet_some hget).1]
      rfl
    refine hbound.step_except (hok i hfree) (fun j hj => ?_) hothers (fun e => (hsame e).1)
      (fun e j h => .inl (hsame.designates.mp h)) (fun w hw => ?_) fun _ hhalf => ?_
    · have hfalse : taken x.table (x.step (.connect sd addr now)).table j = false :=
        taken_eq_false fun h => (hothers j hj) ▸ h
      rw [assigned, hfalse]
      rfl
    · have hmem : w ∈ x.table.connecting ++ [⟨d, i⟩] := hconnecting ▸ hw
      refine (List.mem_append.mp hmem).imp_right fun hlast => ?_
      rw [List.mem_singleton.mp hlast]
      exact hnew
    · exact TcpState.noConfusion (hhalf.symm.trans hstate)

theorem Bound.step_listen {backlog : ℤ} (hok : Admissible (.listen sd backlog) x.table) :
    Bound (x.step (.listen sd backlog)) := by
  rcases sockListen_cases sd backlog x.table with ⟨hcalm, hres⟩ | ⟨d, i, hget, hslot, hres, hlistens⟩
  · refine hbound.step_calm hcalm fun j => ?_
    rw [assigned, if_neg fun h => hres h.1]
  · have hd : sd.toNat = d := (sockGet_some hget).1
    have hnew : (x.step (.listen sd backlog)).madeFor i = some d := by
      refine madeFor_step_assigned ?_
      rw [assigned, hd, if_pos ⟨hres, hlistens.slot⟩]
    refine hbound.step_except (hok d i hget hslot) (fun j hj => ?_) hlistens.sockets hlistens.used
      (fun e j hdes => ?_) (fun w hw => .inl (hlistens.connecting ▸ hw)) fun _ hhalf => ?_
    · rw [assigned, hd, if_neg]
      rintro ⟨-, hbad⟩
      exact hj (by exact_mod_cast hbad.symm.trans hlistens.slot)
    · by_cases he : e = d
      · subst he
        have hji : j = i := by exact_mod_cast hdes.2.symm.trans hlistens.slot
        rw [hji]
        exact .inr hnew
      · exact .inl ⟨(hlistens.used e).symm.trans hdes.1, (hlistens.others e he).symm.trans hdes.2⟩
    · exact TcpState.noConfusion (hhalf.symm.trans hlistens.state)

theorem Bound.step_arrive {src : ℕ} {bytes : List UInt8}
    (hok : Admissible (.arrive src bytes now) x.table) : Bound (x.step (.arrive src bytes now)) := by
  set y := x.step (.arrive src bytes now)
  cases tcpReceive_arrival src bytes now x.table.tcp with
  | calm hcalm haccepts =>
    have htable : y.table = { x.table with tcp := tcpReceive src bytes now x.table.tcp } :=
      segmentArrives_of_accepts haccepts
    refine hbound.step_calm (htable ▸ .of_tcp hcalm) fun i => assigned_arrive fun d => ?_
    rw [htable]
  | @opens seg i hparse hnone hsyn hack hfree hothers haccepts =>
    have htable : y.table = { x.table with tcp := tcpReceive src bytes now x.table.tcp } :=
      segmentArrives_of_accepts haccepts
    refine hbound.step_except ((hok seg hparse).1 hnone hsyn hack i hfree)
      (fun j _ => assigned_arrive fun d => by rw [htable]) (fun j hj => ?_) (fun e => by rw [htable])
      (fun e j hdes => ?_) (fun w hw => ?_) fun hlive _ => ?_
    · rw [htable]
      exact hothers j hj
    · rw [htable] at hdes
      exact .inl hdes
    · rw [htable] at hw
      exact .inl hw
    · refine madeFor_step_none (assigned_arrive fun d => by rw [htable]) (.inl ?_)
      rw [taken, hlive, unused_of_findFree hfree]
      rfl
  | @establishes seg i a hparse hfound hstate hslot hcalm hdone haccepts =>
    have htable : y.table =
      sockNotifyAccept { x.table with tcp := tcpReceive src bytes now x.table.tcp } a := segmentArrives_of_notice haccepts
    rcases sockNotifyAccept_cases { x.table with tcp := tcpReceive src bytes now x.table.tcp } a with
      hsame | ⟨e, halloc, hnew, hothers, htcp, hconnecting⟩
    · rw [hsame] at htable
      refine hbound.step_calm (htable ▸ .of_tcp hcalm) fun i => assigned_arrive fun d => ?_
      rw [htable]
    · rw [← htable] at hnew hothers htcp hconnecting
      rw [hslot] at hnew
      have halloc : sockAlloc x.table = some e := halloc
      have hfree : x.madeFor i = none := hbound.halfOpen i (findConnected_some hfound).1 hstate
      have hmade : y.madeFor i = some e := by
        refine madeFor_step_assigned ?_
        rw [assigned, halloc, filter_some, hnew.1, hnew.2]
        simp
      have hassigned : ∀ j, j ≠ i →
          assigned (.arrive src bytes now) x.table y.table j = none := by
        intro j hj
        rw [assigned, halloc, filter_some, hnew.1, hnew.2]
        simpa using fun h : i = j => hj h.symm
      have hkeep : ∀ f j, f ≠ e → x.madeFor j = some f → y.madeFor j = some f := by
        intro f j hf h
        have hj : j ≠ i := by
          rintro rfl
          rw [hfree] at h
          cases h
        refine madeFor_step (hassigned j hj) (taken_eq_false ?_) (fresh_eq_false fun h => (hothers f hf).1 ▸ h) h
        rw [htcp]
        exact fun hused => (hcalm j hused).1
      refine ⟨fun f j hdes => ?_, fun w hw => ?_, fun j hlive hhalf => ?_⟩
      · by_cases hf : f = e
        · subst hf
          have hji : j = i := by exact_mod_cast hdes.2.symm.trans hnew.2
          rw [hji]
          exact hmade
        · have hbefore : Designates x.table f j :=
            ⟨(hothers f hf).1.symm.trans hdes.1, (hothers f hf).2.symm.trans hdes.2⟩
          exact hkeep f j hf (hbound.designated f j hbefore)
      · rw [hconnecting] at hw
        exact hkeep _ _ ((hok seg hparse).2 i hfound hstate e halloc w hw) (hbound.awaited w hw)
      · rw [htcp] at hlive hhalf
        have hji : j ≠ i := fun hji => TcpState.noConfusion ((hji ▸ hhalf).symm.trans hdone)
        obtain ⟨hbefore, hwas⟩ := hcalm j hlive
        exact madeFor_step_none (hassigned j hji) (.inr (hbound.halfOpen j hbefore (hwas hhalf)))

theorem Bound.step (hok : Admissible c x.table) : Bound (x.step c) := by
  cases c with
  | create domain type protocol owner => exact hbound.step_create hok
  | bind sd addr => exact hbound.step_calm calm_sockBind fun _ => rfl
  | connect sd addr now => exact hbound.step_connect hok
  | connectDone k => exact hbound.step_calm calm_sockConnectDone fun _ => rfl
  | connectTimeout k => exact hbound.step_calm calm_sockConnectTimeout fun _ => rfl
  | listen sd backlog => exact hbound.step_listen hok
  | accept sd => exact hbound.step_calm calm_sockAccept fun _ => rfl
  | acceptDone k => exact hbound.step_calm calm_sockAcceptDone fun _ => rfl
  | acceptTimeout k => exact hbound.step_calm calm_sockAcceptTimeout fun _ => rfl
  | use sd u => exact hbound.step_calm (calm_sockUse u) fun _ => rfl
  | tick now => exact hbound.step_calm (.of_tcp tcpCalm_tcpTick) fun _ => rfl
  | arrive src bytes now => exact hbound.step_arrive hok

theorem Bound.isolated : Isolated x where
  distinct d e i hd he _ := some.inj ((hbound.designated d i hd).symm.trans (hbound.designated e i he))
  writes d u i hforeign := by
    refine sockets_sockUse u fun e hget hslot => hforeign.2 ?_
    obtain ⟨-, heq, hused⟩ := sockGet_some hget
    obtain rfl : d = e := by exact_mod_cast heq
    exact hbound.designated d i ⟨hused, eq_of_getSocket hslot⟩
  reads d u f hf := by
    refine sockUse_congr u rfl rfl rfl fun e hget i hslot => hf i fun hforeign => hforeign.2 ?_
    obtain ⟨-, heq, hused⟩ := sockGet_some hget
    obtain rfl : d = e := by exact_mod_cast heq
    exact hbound.designated d i ⟨hused, hslot⟩

def AdmissibleRun : Tracked → List SockCall → Tracked → Prop :=
  Run (guarded (fun x c => Admissible c x.table) fun x c x' => x' = x.step c)

theorem Bound.unclaimed (h : (x.madeFor i).isNone) : Unclaimed x.table i := by
  have hnone : x.madeFor i = none := isNone_iff_eq_none.mp h
  constructor
  · intro d hdes
    exact some_ne_none d ((hbound.designated d i hdes).symm.trans hnone)
  · rintro w hw rfl
    exact some_ne_none w.sd ((hbound.awaited w hw).symm.trans hnone)

theorem Bound.admissible (h : handsOutUnmade x c) : Admissible c x.table := by
  have hunawaited : ∀ d, (x.table.connecting.all fun w => w.sd ≠ d) → Unawaited x.table d := by
    intro d hall w hw
    simpa using List.all_eq_true.mp hall w hw
  cases c with
  | create domain type protocol owner =>
    intro d halloc
    rw [handsOutUnmade, halloc] at h
    exact hunawaited d h
  | connect sd addr now =>
    intro i hfree
    rw [handsOutUnmade, hfree] at h
    exact hbound.unclaimed h
  | listen sd backlog =>
    intro d i hget hslot
    rw [handsOutUnmade, hget, all_some, hslot] at h
    exact hbound.unclaimed h
  | arrive src bytes now =>
    dsimp only [handsOutUnmade] at h
    rw [Bool.and_eq_true] at h
    intro seg _
    constructor
    · intro _ _ _ i hfree
      rw [hfree] at h
      exact hbound.unclaimed h.1
    · intro _ _ _ d halloc
      rw [halloc] at h
      exact hunawaited d h.2
  | _ => trivial

def handsOutUnmadeAll : Tracked → List SockCall → Bool
  | _, [] => true
  | x, c :: cs => handsOutUnmade x c && handsOutUnmadeAll (x.step c) cs

theorem Bound.run {cs : List SockCall} (h : handsOutUnmadeAll x cs) :
    AdmissibleRun x cs (cs.foldl Tracked.step x) := by
  induction cs generalizing x with
  | nil => exact .nil x
  | cons c cs ih =>
    rw [handsOutUnmadeAll, Bool.and_eq_true] at h
    have hok := hbound.admissible h.1
    exact .cons ⟨hok, rfl⟩ (ih (hbound.step hok) h.2)

end

def acceptTwice : List SockCall :=
  [.create afInet sockStream 0 1, .bind 0 (some ⟨afInet, htons 80, 0⟩), .listen 0 4,
    .arrive 9 (segmentFrom 16 [0, 0, 0, 5] [0, 0, 0, 0] 2 []) 0,
    .arrive 9 (segmentFrom 16 [0, 0, 0, 6] [18, 52, 86, 121] 16 [104, 105]) 0, .accept 0, .acceptDone 0,
    .arrive 9 (segmentFrom 16 [0, 0, 0, 6] [18, 52, 86, 121] 16 [104, 105]) 0, .use 1 (.recv 8 0),
    .arrive 8 (segmentFrom 17 [0, 0, 0, 5] [0, 0, 0, 0] 2 []) 0,
    .arrive 8 (segmentFrom 17 [0, 0, 0, 6] [18, 52, 86, 121] 16 []) 0]

def resetAndReuse : List SockCall :=
  [.create afInet sockStream 0 1, .bind 0 (some ⟨afInet, htons 80, 0⟩), .listen 0 4,
    .arrive 9 (segmentFrom 16 [0, 0, 0, 5] [0, 0, 0, 0] 2 []) 0,
    .arrive 9 (segmentFrom 16 [0, 0, 0, 6] [18, 52, 86, 121] 16 []) 0,
    .arrive 9 (segmentFrom 16 [0, 0, 0, 6] [0, 0, 0, 0] 4 []) 0,
    .arrive 8 (segmentFrom 17 [0, 0, 0, 5] [0, 0, 0, 0] 2 []) 0,
    .arrive 8 (segmentFrom 17 [0, 0, 0, 6] [18, 52, 86, 121] 16 []) 0,
    .arrive 8 (segmentFrom 17 [0, 0, 0, 6] [18, 52, 86, 121] 16 [104, 105]) 0]

end AetherOs.Socket
