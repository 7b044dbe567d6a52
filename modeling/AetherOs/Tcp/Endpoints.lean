import AetherOs.Tcp.Handshake

/-! # Endpoints of connections -/

namespace AetherOs.Tcp

open Base TcpTable TcpSocket

variable {c : Call} {s s' : TcpSocket} {t t' : TcpTable} {i j now : ℕ} {seg : Segment}

def TcpSocket.Open (s : TcpSocket) : Prop := s.used = true ∧ s.state ≠ .listen

/-- If the slot is open afterwards, it was open before, with the same endpoint. -/
def Stays (s s' : TcpSocket) : Prop := s'.Open → s.Open ∧ s'.endpoint = s.endpoint

theorem Stays.refl : Stays s s := fun hopen => ⟨hopen, rfl⟩

theorem Stays.free (hused : s'.used = false) : Stays s s' := by
  rintro ⟨hbad, -⟩
  cases hused.symm.trans hbad

theorem stays_receiveOn (hused : (t.sockets i).used) :
    Stays (t.sockets j) ((receiveOn i seg now t).sockets j) := by
  by_cases hji : j = i
  · subst hji
    refine fun hopen => ⟨⟨hused, fun hlisten => ?_⟩, sockets_receiveOn.2⟩
    rw [receiveOn, hlisten] at hopen
    exact hopen.2 hlisten
  · rw [sockets_receiveOn_of_ne hji]
    exact .refl

theorem stays_tickSocket : Stays (t.sockets j) ((tickSocket now t i).sockets j) := by
  by_cases hji : j = i
  · subst hji
    rw [sockets_tickSocket_self, ticked]
    split_ifs
    · exact .free rfl
    · exact fun hopen => ⟨hopen, rfl⟩
    · exact .refl
  · rw [sockets_tickSocket_of_ne hji]
    exact .refl

theorem stays_foldl_tickSocket (is : List ℕ) (t : TcpTable) :
    Stays (t.sockets j) ((is.foldl (tickSocket now) t).sockets j) := by
  induction is generalizing t with
  | nil => exact .refl
  | cons i is ih =>
    intro hopen
    obtain ⟨hmid, hlast⟩ := ih (tickSocket now t i) hopen
    obtain ⟨hfirst, heq⟩ := stays_tickSocket hmid
    exact ⟨hfirst, hlast.trans heq⟩

theorem stays_tcpClose {sock : ℤ} : Stays (t.sockets j) ((tcpClose sock now t).sockets j) := by
  rw [tcpClose]
  split
  · exact .refl
  · rename_i i _
    by_cases hji : j = i
    · rw [hji, sockets_setSocket_self]
      exact .free rfl
    · rw [sockets_setSocket_of_ne hji]
      split
      · rw [Only.refl.send.set.sockets j hji]
        exact .refl
      · exact .refl

def Ephemeral (port : ℕ) : Prop := 49152 ≤ port ∧ port ≤ 65535

/-- The calls of a run: `tcp_connect` finds its port in the range, and no open slot with the endpoint it will have. -/
def Clear (t : TcpTable) : Call → Prop
  | .connect ip port _ => Ephemeral t.ephemeralPort ∧
    ∀ j < maxSockets, (t.sockets j).Open → (t.sockets j).endpoint ≠ (t.ephemeralPort, ip, port)
  | .send _ _ _ => False
  | .recv _ _ => False
  | _ => True

/-- A free slot is opened with an endpoint that no open slot has. -/
structure Fresh (c : Call) (t : TcpTable) (s s' : TcpSocket) : Prop where
  free : s.used = false
  used : s'.used = true
  new : ∀ j < maxSockets, (t.sockets j).Open → (t.sockets j).endpoint ≠ s'.endpoint
  port : (openedBy c).passive = false → Ephemeral s'.localPort

def Next (c : Call) (t t' : TcpTable) : Prop :=
  ∃ i, ∀ j, Stays (t.sockets j) (t'.sockets j) ∨ j = i ∧ Fresh c t (t.sockets j) (t'.sockets j)

theorem Next.stays (h : ∀ j, Stays (t.sockets j) (t'.sockets j)) : Next c t t' := ⟨0, fun j => .inl (h j)⟩

theorem Next.set (honly : Only i t t') (h : Stays (t.sockets i) s ∨ Fresh c t (t.sockets i) s) :
    Next c t (t'.setSocket i s) := by
  refine ⟨i, fun j => ?_⟩
  by_cases hji : j = i
  · rw [hji, sockets_setSocket_self]
    exact h.imp_right fun hfresh => ⟨rfl, hfresh⟩
  · rw [honly.set.sockets j hji]
    exact .inl .refl

theorem findConnected_none {src : ℕ} (hnone : findConnected src seg t = none) (hj : j < maxSockets)
    (hopen : (t.sockets j).Open) : (t.sockets j).endpoint ≠ (seg.dstPort, src, seg.srcPort) := by
  intro heq
  simp only [endpoint, Prod.mk.injEq] at heq
  have hmiss := search_none hnone (Nat.zero_le j) (by omega)
  simp [hopen.1, heq] at hmiss

theorem Next.opened (h : Opened i s t t') (hfree : findFree t = some i) (hused : s.used)
    (hnew : ∀ j < maxSockets, (t.sockets j).Open → (t.sockets j).endpoint ≠ s.endpoint)
    (hport : (openedBy c).passive = false → Ephemeral s.localPort) :
    Next c t (t'.setSocket i (t'.sockets i).bumpSeq) := by
  have hendpoint : (t'.sockets i).bumpSeq.endpoint = s.endpoint := h.keeps.endpoint
  refine .set h.only (.inr ⟨unused_of_findFree hfree, h.keeps.used.trans hused, hendpoint ▸ hnew, ?_⟩)
  rw [show (t'.sockets i).bumpSeq.localPort = s.localPort from h.keeps.localPort]
  exact hport

theorem exec_next (hclear : Clear t c) : Next c t (exec c t) := by
  cases c with
  | listen port =>
    rw [exec, tcpListen]
    split
    · exact .stays fun _ => .refl
    · split
      · exact .stays fun _ => .refl
      · exact .set .refl (.inl fun hopen => absurd rfl hopen.2)
  | connect ip port now =>
    rw [exec]
    rcases tcpConnect_cases ip port now t with hnone | ⟨i, t', hfree, hopened, hfail | hdone⟩
    · rw [hnone]
      exact .stays fun _ => .refl
    · rw [hfail]
      exact .set hopened.only (.inl (.free rfl))
    · rw [hdone]
      exact .opened hopened hfree rfl hclear.2 fun _ => hclear.1
  | connectTimeout slot => exact .set .refl (.inl (.free rfl))
  | close sock now => exact .stays fun _ => stays_tcpClose
  | tick now => exact .stays fun _ => stays_foldl_tickSocket _ t
  | arrive src bytes now =>
    rw [exec, tcpReceive]
    split
    · exact .stays fun _ => .refl
    · rename_i seg hparse
      split
      · rename_i hnone
        rcases receiveSyn_cases src seg now t with hsame | ⟨i, t', -, -, hfree, hopened, hdone⟩
        · rw [hsame]
          exact .stays fun _ => .refl
        · rw [hdone]
          exact .opened hopened hfree rfl (fun _ => findConnected_none hnone) fun hbad => Bool.noConfusion hbad
      · rename_i i hfound
        exact .stays fun _ => stays_receiveOn (findConnected_some hfound).1
  | _ => exact hclear.elim

structure Distinct (o : Observed) : Prop where
  unique : ∀ i < maxSockets, ∀ j < maxSockets, (o.table.sockets i).Open → (o.table.sockets j).Open →
    (o.table.sockets i).endpoint = (o.table.sockets j).endpoint → i = j
  range : ∀ i, (o.table.sockets i).Open → (o.openings i).passive = false → Ephemeral (o.table.sockets i).localPort

theorem Distinct.step {o : Observed} (h : Distinct o) (hclear : Clear o.table c) : Distinct (observe c o) := by
  obtain ⟨k, hslot⟩ := exec_next hclear
  refine ⟨fun i hi j hj hopen hopen' heq => ?_, fun i hopen hactive => ?_⟩
  · rcases hslot i with hstays | ⟨rfl, hfresh⟩ <;> rcases hslot j with hstays' | ⟨rfl, hfresh'⟩
    · obtain ⟨hbefore, hsame⟩ := hstays hopen
      obtain ⟨hbefore', hsame'⟩ := hstays' hopen'
      exact h.unique i hi j hj hbefore hbefore' (hsame.symm.trans (heq.trans hsame'))
    · obtain ⟨hbefore, hsame⟩ := hstays hopen
      exact absurd (hsame.symm.trans heq) (hfresh'.new i hi hbefore)
    · obtain ⟨hbefore, hsame⟩ := hstays' hopen'
      exact absurd (hsame.symm.trans heq.symm) (hfresh.new j hj hbefore)
    · rfl
  · change (if _ then openedBy c else o.openings i).passive = false at hactive
    rcases hslot i with hstays | ⟨-, hfresh⟩
    · obtain ⟨hbefore, hsame⟩ := hstays hopen
      rw [if_neg fun hbad => Bool.noConfusion (hbefore.1.symm.trans hbad.1)] at hactive
      have hport : ((observe c o).table.sockets i).localPort = (o.table.sockets i).localPort := congrArg Prod.fst hsame
      exact hport ▸ h.range i hbefore hactive
    · rw [if_pos ⟨hfresh.free, hfresh.used⟩] at hactive
      exact hfresh.port hactive

/-- Endpoints are unique, and connections that were dialled have a local port of the range, in every run in which each
`tcp_connect` finds its port in the range and no open slot with the endpoint it will have. -/
theorem endpoints_distinct {ip : ℕ} {link : ℕ → Bool} {cs : List Call} {o : Observed}
    (hrun : Run (guarded (fun o => Clear o.table) fun o c o' => o' = observe c o) (start ip link) cs o) :
    Distinct o := by
  refine hrun.invariant (I := Distinct) ?_ ?_
  · rintro o c _ h ⟨hclear, rfl⟩
    exact h.step hclear
  · exact ⟨fun i _ j _ hbad => Bool.noConfusion hbad.1, fun i hbad => Bool.noConfusion hbad.1⟩

/-- A connection that is dialled first. -/
theorem endpoints_distinct_dialled :
    ((observe (.connect 9 80 0) (start 7 fun _ => true)).table.sockets 0).Open ∧
      Distinct (observe (.connect 9 80 0) (start 7 fun _ => true)) := by
  have hclear : Clear (start 7 fun _ => true).table (.connect 9 80 0) :=
    ⟨⟨by decide, by decide⟩, fun _ _ hbad => Bool.noConfusion hbad.1⟩
  exact ⟨⟨by decide +kernel, by decide +kernel⟩, endpoints_distinct (.cons ⟨hclear, rfl⟩ (.nil _))⟩

def synTo49152 : List UInt8 := [16, 0, 192, 0, 0, 0, 0, 5, 0, 0, 0, 0, 80, 2, 16, 0, 0, 0, 0, 0]

def shared : Observed :=
  [.listen 49152, .arrive 9 synTo49152 0, .connect 9 4096 0].foldl (fun o c => observe c o) (start 7 fun _ => true)

/-- A peer that connected to port 49152 is dialled at the port it used. -/
theorem endpoints_shared :
    (shared.table.sockets 1).Open ∧ (shared.table.sockets 2).Open ∧
      (shared.table.sockets 1).endpoint = (shared.table.sockets 2).endpoint := by
  refine ⟨⟨?_, ?_⟩, ⟨?_, ?_⟩, ?_⟩ <;> decide +kernel

end AetherOs.Tcp
