import AetherOs.Base.Flags
import AetherOs.Base.Run
import AetherOs.Signal.Model

/-! # Blocked signals while handlers run -/

namespace AetherOs.Signal

open Base List BitVec

variable {t u : Task} {h : Handling} {f : Frame} {rest : List Frame} {c : MaskCall} {own : List MaskCall} {sig i : ℕ}
  {set b : SigSet}

def strip (set : SigSet) : SigSet := sigdelset (sigdelset set sigkill) sigstop

structure MaskCall where
  how : How
  set : SigSet
  deriving DecidableEq

def MaskCall.apply (blocked : SigSet) (c : MaskCall) : SigSet := (c.how.apply blocked (strip c.set)).getD blocked

open MaskCall

structure Frame where
  sig : ℕ
  deferred : Bool
  before : SigSet
  own : List MaskCall
  deriving DecidableEq

def Frame.start (f : Frame) : SigSet := if f.deferred then sigaddset f.before f.sig else f.before

structure Handling where
  task : Task
  frames : List Frame

def Handling.blocked (h : Handling) : SigSet := h.task.sigstate.blocked

inductive SigCall
  | send (sig : ℤ)
  | sigaction (sig : ℤ) (act : Option SigAction)
  | sigprocmask (how : How) (set : Option SigSet)
  | deliver (arrived : ℕ → SigSet)
  | sigreturn

def note (c : MaskCall) : List Frame → List Frame
  | [] => []
  | f :: rest => { f with own := f.own ++ [c] } :: rest

def leave : List Frame → List Frame
  | [] => []
  | f :: rest => if f.deferred then rest else f.own.foldl (fun frames c => note c frames) rest

def entered (h : Handling) (sig : ℕ) : Frame where
  sig := sig
  deferred := (h.task.sigstate.actions (sig - 1)).flags &&& saNodefer = 0
  before := h.blocked
  own := []

def exec (h : Handling) : SigCall → Handling
  | .send sig => { h with task := (signalSendProc sig h.task).2 }
  | .sigaction sig act => { h with task := (signalDoSigaction sig act h.task).2.2 }
  | .sigprocmask how set =>
    { task := (signalDoSigprocmask how set h.task).2.2
      frames := (set.map fun set => note ⟨how, set⟩ h.frames).getD h.frames }
  | .deliver arrived =>
    { task := (signalDeliverPending true arrived h.task).2
      frames := ((signalDeliverPending true arrived h.task).1.map fun sig => entered h sig :: h.frames).getD h.frames }
  | .sigreturn => { task := signalDoSigreturn h.task, frames := leave h.frames }

def Step (h : Handling) (c : SigCall) (h' : Handling) : Prop := h' = exec h c

def Right (h : Handling) (c : SigCall) (h' : Handling) : Prop :=
  match c with
  | .deliver arrived =>
    ∀ sig, (signalDeliverPending true arrived h.task).1 = some sig → (entered h sig).deferred = true →
      h'.blocked = strip (h.blocked ||| (h.task.sigstate.actions (sig - 1)).mask ||| sigbit sig)
  | .sigreturn =>
    ∀ f rest, h.frames = f :: rest → f.deferred = true →
      h'.blocked = f.before ∧ sigismember h'.blocked f.sig = false
  | _ => True

def How.change (how : How) (inSet : Bool) (last : Option Bool) : Option Bool :=
  match how with
  | .block => if inSet then some true else last
  | .unblock => if inSet then some false else last
  | .setmask => some inSet
  | .other => last

def lastChange (i : ℕ) (own : List MaskCall) : Option Bool :=
  own.foldl (fun last c => c.how.change ((strip c.set).getLsbD i) last) none

def Undoes (f : Frame) : Prop :=
  ∀ i < 32, if i = f.sig - 1 then lastChange i f.own = some false
    else lastChange i f.own = none ∨ lastChange i f.own = some (f.before.getLsbD i)

def Careful (h : Handling) (c : SigCall) : Prop :=
  match c with
  | .deliver arrived =>
    ∀ sig, (signalDeliverPending true arrived h.task).1 = some sig → (entered h sig).deferred = true →
      strip (h.task.sigstate.actions (sig - 1)).mask &&& ~~~(h.blocked ||| sigbit sig) = 0
  | .sigreturn => ∀ f rest, h.frames = f :: rest → f.deferred = true → Undoes f
  | _ => True

theorem sigbit_eq : sigbit sig = twoPow 32 (sig - 1) := (twoPow_eq 32 (sig - 1)).symm

theorem getLsbD_sigbit (hi : i < 32) : (sigbit sig).getLsbD i = decide (i = sig - 1) := by
  rw [sigbit_eq, getLsbD_twoPow]
  grind

theorem getLsbD_strip (hi : i < 32) :
    (strip set).getLsbD i = (set.getLsbD i && !decide (i = sigkill - 1) && !decide (i = sigstop - 1)) := by
  simp only [strip, sigdelset, getLsbD_and, getLsbD_not, getLsbD_sigbit hi, hi, decide_true,
    Bool.true_and]

theorem sigismember_eq : sigismember set sig = set.getLsbD (sig - 1) := by
  rw [← and_twoPow_bne_zero, ← sigbit_eq, sigismember, bne, Bool.eq_iff_iff]
  simp

theorem How.change_getD {how : How} {inSet : Bool} {last : Option Bool} {bit : Bool} :
    (how.change inSet none).getD (last.getD bit) = (how.change inSet last).getD bit := by
  cases how <;> cases inSet <;> rfl

theorem getLsbD_apply (hi : i < 32) :
    (c.apply b).getLsbD i = (c.how.change ((strip c.set).getLsbD i) none).getD (b.getLsbD i) := by
  rw [apply]
  cases c.how with
  | block =>
    change (b ||| strip c.set).getLsbD i = _
    rw [getLsbD_or]
    cases (strip c.set).getLsbD i <;> simp [How.change]
  | unblock =>
    change (b &&& ~~~strip c.set).getLsbD i = _
    rw [getLsbD_and, getLsbD_not]
    cases (strip c.set).getLsbD i <;> simp [How.change, hi]
  | setmask => rfl
  | other => rfl

theorem getLsbD_foldl_apply (hi : i < 32) :
    (own.foldl apply b).getLsbD i = (lastChange i own).getD (b.getLsbD i) := by
  induction own using List.reverseRecOn with
  | nil => rfl
  | append_singleton own c ih =>
    rw [foldl_append, foldl_cons, foldl_nil, getLsbD_apply hi, ih, lastChange, lastChange,
      foldl_append, foldl_cons, foldl_nil, How.change_getD]

theorem undoes_iff (hdef : f.deferred) (hnew : f.before.getLsbD (f.sig - 1) = false) :
    f.own.foldl apply f.start = f.before ↔ Undoes f := by
  have hstart : ∀ i < 32, f.start.getLsbD i = (f.before.getLsbD i || decide (i = f.sig - 1)) := by
    intro i hi
    rw [Frame.start, if_pos hdef, sigaddset, getLsbD_or, getLsbD_sigbit hi]
  have hbit : ∀ i < 32, ((f.own.foldl apply f.start).getLsbD i = f.before.getLsbD i ↔
      if i = f.sig - 1 then lastChange i f.own = some false
      else lastChange i f.own = none ∨ lastChange i f.own = some (f.before.getLsbD i)) := by
    intro i hi
    rw [getLsbD_foldl_apply hi, hstart i hi]
    split_ifs with heq
    · subst heq
      rw [hnew]
      cases lastChange (f.sig - 1) f.own <;> simp
    · cases lastChange i f.own <;> simp [heq]
  constructor
  · intro heq i hi
    exact (hbit i hi).mp (by rw [heq])
  · intro hundo
    exact eq_of_getLsbD_eq fun i hi => (hbit i hi).mpr (hundo i hi)

theorem strip_addset (hb : strip b = b) (hkill : sig ≠ sigkill) (hstop : sig ≠ sigstop) (hpos : 0 < sig) :
    strip (sigaddset b sig) = sigaddset b sig := by
  refine eq_of_getLsbD_eq fun i hi => ?_
  have hbit := congrArg (fun x => getLsbD x i) hb
  simp only [getLsbD_strip hi] at hbit
  rw [getLsbD_strip hi, sigaddset, getLsbD_or, getLsbD_sigbit hi]
  simp only [sigkill, sigstop] at hkill hstop hbit ⊢
  grind

theorem addset_eq_strip_iff {mask : SigSet} (hb : strip b = b) (hkill : sig ≠ sigkill) (hstop : sig ≠ sigstop)
    (hpos : 0 < sig) :
    sigaddset b sig = strip (b ||| mask ||| sigbit sig) ↔ strip mask &&& ~~~(b ||| sigbit sig) = 0 := by
  have hdist : strip (b ||| mask ||| sigbit sig) = sigaddset b sig ||| strip mask := by
    rw [← strip_addset hb hkill hstop hpos, sigaddset]
    refine eq_of_getLsbD_eq fun i hi => ?_
    simp only [getLsbD_strip hi, getLsbD_or]
    grind
  rw [hdist, sigaddset]
  constructor
  · intro heq
    refine eq_of_getLsbD_eq fun i hi => ?_
    have hbit := congrArg (fun x => getLsbD x i) heq
    simp only [getLsbD_or] at hbit
    simp only [getLsbD_and, getLsbD_not, getLsbD_or, hi]
    grind
  · intro hzero
    refine eq_of_getLsbD_eq fun i hi => ?_
    have hbit := congrArg (fun x => getLsbD x i) hzero
    simp only [getLsbD_and, getLsbD_not, getLsbD_or, hi] at hbit
    simp only [getLsbD_or]
    grind

structure SameMasks (t u : Task) : Prop where
  blocked : u.sigstate.blocked = t.sigstate.blocked
  actions : u.sigstate.actions = t.sigstate.actions

theorem sameMasks_processExit {code : ℤ} : SameMasks t (processExit code t) := by
  rw [processExit]
  split
  · exact ⟨rfl, rfl⟩
  · exact ⟨rfl, rfl⟩

theorem sameMasks_signalDefaultAction {arrived : SigSet} : SameMasks t (signalDefaultAction arrived sig t) := by
  rw [signalDefaultAction]
  split_ifs
  · exact sameMasks_processExit
  · exact ⟨rfl, rfl⟩
  · exact ⟨rfl, rfl⟩
  · exact sameMasks_processExit

def Delivered (deliverable : SigSet) (t : Task) (r : Option ℕ × Task) : Prop :=
  (r.1 = none ∧ r.2.sigstate.blocked = t.sigstate.blocked) ∨
    ∃ sig, r.1 = some sig ∧ 0 < sig ∧ sigismember deliverable sig = true ∧ sig ≠ sigkill ∧ sig ≠ sigstop ∧
      r.2.sigstate.blocked = if (t.sigstate.actions (sig - 1)).flags &&& saNodefer = 0
        then sigaddset t.sigstate.blocked sig else t.sigstate.blocked

theorem Delivered.of_sameMasks {deliverable : SigSet} {r : Option ℕ × Task} (hsame : SameMasks t u)
    (hr : Delivered deliverable u r) : Delivered deliverable t r := by
  rwa [Delivered, hsame.blocked, hsame.actions] at hr

theorem deliverFrom_spec {ring3 : Bool} {arrived : ℕ → SigSet} {deliverable : SigSet} {sigs : List ℕ}
    (hpos : ∀ sig ∈ sigs, 0 < sig) : Delivered deliverable t (deliverFrom ring3 arrived deliverable sigs t) := by
  induction sigs generalizing t with
  | nil => exact .inl ⟨rfl, rfl⟩
  | cons sig sigs ih =>
    have ih : ∀ {t}, Delivered deliverable t (deliverFrom ring3 arrived deliverable sigs t) :=
      ih fun sig hsig => hpos sig (mem_cons_of_mem _ hsig)
    rw [deliverFrom]
    split
    · exact ih
    rename_i hmem
    have hmem := Bool.not_eq_false _ ▸ hmem
    have hunpend : SameMasks t (unpend sig t) := ⟨rfl, rfl⟩
    simp only
    split_ifs with hign hkill hstop hcont hwait hdfl hring
    · exact .of_sameMasks hunpend ih
    · exact .inl ⟨rfl, sameMasks_processExit.blocked⟩
    · exact .of_sameMasks ⟨rfl, rfl⟩ ih
    · exact .of_sameMasks ⟨rfl, rfl⟩ ih
    · exact .of_sameMasks hunpend ih
    · exact .inl ⟨rfl, sameMasks_signalDefaultAction.blocked⟩
    · exact .inr ⟨sig, rfl, hpos sig mem_cons_self, hmem, hkill, hstop, rfl⟩
    · exact .inl ⟨rfl, sameMasks_signalDefaultAction.blocked⟩

theorem signalDeliverPending_spec (t : Task) (frame : Bool) (arrived : ℕ → SigSet) :
    Delivered (t.sigstate.pending &&& ~~~t.sigstate.blocked) t (signalDeliverPending frame arrived t) := by
  rw [signalDeliverPending]
  split
  · exact .inl ⟨rfl, rfl⟩
  · refine deliverFrom_spec fun sig hsig => ?_
    have := (mem_range'_1.mp hsig).1
    omega

theorem blocked_signalSendProc {n : ℤ} : (signalSendProc n t).2.sigstate.blocked = t.sigstate.blocked := by
  rw [signalSendProc]
  split
  · rfl
  simp only
  split_ifs <;> rfl

theorem blocked_signalDoSigaction {n : ℤ} {act : Option SigAction} :
    (signalDoSigaction n act t).2.2.sigstate.blocked = t.sigstate.blocked := by
  rw [signalDoSigaction]
  split_ifs
  · rfl
  · rfl
  · cases act <;> rfl

theorem blocked_signalDoSigprocmask {how : How} :
    (signalDoSigprocmask how (some set) t).2.2.sigstate.blocked = apply t.sigstate.blocked ⟨how, set⟩ := by
  cases how <;> rfl

theorem sigstate_signalDoSigreturn : (signalDoSigreturn t).sigstate = t.sigstate := by rw [signalDoSigreturn]

theorem blocked_sigreturn : (exec h .sigreturn).blocked = h.blocked := by
  rw [exec, Handling.blocked, sigstate_signalDoSigreturn, Handling.blocked]

theorem strip_apply (hb : strip b = b) : strip (c.apply b) = c.apply b := by
  refine eq_of_getLsbD_eq fun i hi => ?_
  have hbit := congrArg (fun x => getLsbD x i) hb
  simp only [getLsbD_strip hi] at hbit
  rw [getLsbD_strip hi, getLsbD_apply hi, getLsbD_strip hi]
  cases c.how <;> simp only [How.change] <;> grind

def Stacked : SigSet → List Frame → Prop
  | _, [] => True
  | b, f :: rest =>
    b = f.own.foldl apply f.start ∧ f.before.getLsbD (f.sig - 1) = false ∧ Stacked f.before rest

structure Tracked (h : Handling) : Prop where
  free : strip h.blocked = h.blocked
  stacked : Stacked h.blocked h.frames

theorem Stacked.note {frames : List Frame} (hs : Stacked b frames) : Stacked (c.apply b) (note c frames) := by
  cases frames with
  | nil => trivial
  | cons f rest =>
    obtain ⟨hb, hnew, hrest⟩ := hs
    refine ⟨?_, hnew, hrest⟩
    change _ = List.foldl _ _ (f.own ++ [c])
    rw [foldl_append, foldl_cons, foldl_nil, hb]
    rfl

theorem Stacked.notes {frames : List Frame} (hs : Stacked b frames) :
    Stacked (own.foldl apply b) (own.foldl (fun frames c => Signal.note c frames) frames) := by
  induction own generalizing b frames with
  | nil => exact hs
  | cons c own ih => exact ih hs.note

theorem blocked_of_deliverable {pending : SigSet} (hmem : sigismember (pending &&& ~~~b) sig) :
    b.getLsbD (sig - 1) = false := by
  rw [sigismember_eq, getLsbD_and, getLsbD_not] at hmem
  grind

theorem right_iff_careful (ht : Tracked h) (c : SigCall) : Right h c (exec h c) ↔ Careful h c := by
  cases c with
  | send sig => exact Iff.rfl
  | sigaction sig act => exact Iff.rfl
  | sigprocmask how set => exact Iff.rfl
  | deliver arrived =>
    refine forall_congr' fun sig => forall_congr' fun hsig => forall_congr' fun hdef => ?_
    rcases signalDeliverPending_spec h.task true arrived with ⟨hnone, -⟩ | ⟨sig', hsig', hpos, -, hkill,
      hstop, hblocked⟩
    · rw [hnone] at hsig
      cases hsig
    · obtain rfl : sig' = sig := Option.some.inj (hsig'.symm.trans hsig)
      rw [if_pos (of_decide_eq_true hdef)] at hblocked
      change (signalDeliverPending true arrived h.task).2.sigstate.blocked = _ ↔ _
      rw [hblocked]
      exact addset_eq_strip_iff ht.free hkill hstop hpos
  | sigreturn =>
    simp only [Right, Careful, blocked_sigreturn]
    refine forall_congr' fun f => forall_congr' fun rest => forall_congr' fun hf => forall_congr' fun hdef => ?_
    have hs := ht.stacked
    rw [hf] at hs
    obtain ⟨hb, hnew, -⟩ := hs
    rw [← undoes_iff hdef hnew, ← hb]
    refine ⟨And.left, fun heq => ⟨heq, ?_⟩⟩
    rw [sigismember_eq, heq, hnew]

theorem Tracked.exec (ht : Tracked h) {c : SigCall} (hright : Right h c (exec h c)) : Tracked (exec h c) := by
  obtain ⟨hfree, hs⟩ := ht
  cases c with
  | send sig =>
    have hb : (Signal.exec h (.send sig)).blocked = h.blocked := blocked_signalSendProc
    exact ⟨by rw [hb, hfree], by rw [hb]; exact hs⟩
  | sigaction sig act =>
    have hb : (Signal.exec h (.sigaction sig act)).blocked = h.blocked := blocked_signalDoSigaction
    exact ⟨by rw [hb, hfree], by rw [hb]; exact hs⟩
  | sigprocmask how set =>
    cases set with
    | none => exact ⟨hfree, hs⟩
    | some set =>
      have hb : (Signal.exec h (.sigprocmask how (some set))).blocked = apply h.blocked ⟨how, set⟩ :=
        blocked_signalDoSigprocmask
      exact ⟨by rw [hb, strip_apply hfree], by rw [hb]; exact hs.note⟩
  | deliver arrived =>
    rcases signalDeliverPending_spec h.task true arrived with ⟨hnone, hb⟩ | ⟨sig, hsig, hpos, hmem,
      hkill, hstop, hb⟩
    · have hframes : (Signal.exec h (.deliver arrived)).frames = h.frames := by simp [Signal.exec, hnone]
      change (Signal.exec h (.deliver arrived)).blocked = h.blocked at hb
      exact ⟨by rw [hb, hfree], by rw [hb, hframes]; exact hs⟩
    · have hframes : (Signal.exec h (.deliver arrived)).frames = entered h sig :: h.frames := by
        simp [Signal.exec, hsig]
      have hstart : (Signal.exec h (.deliver arrived)).blocked = (entered h sig).start := by
        rw [Frame.start, entered]
        simp only [decide_eq_true_eq]
        exact hb
      refine ⟨?_, ?_⟩
      · change (Signal.exec h (.deliver arrived)).blocked = _ at hb
        rw [hb]
        split
        · exact strip_addset hfree hkill hstop hpos
        · exact hfree
      · rw [hframes, hstart]
        exact ⟨rfl, blocked_of_deliverable hmem, hs⟩
  | sigreturn =>
    have hleave : (Signal.exec h .sigreturn).frames = leave h.frames := rfl
    refine ⟨by rw [blocked_sigreturn, hfree], ?_⟩
    rw [blocked_sigreturn, hleave]
    cases hf : h.frames with
    | nil => trivial
    | cons f rest =>
      rw [hf] at hs
      obtain ⟨hb, hnew, hrest⟩ := hs
      rw [leave]
      split_ifs with hdef
      · have hback := (hright f rest hf hdef).1
        rw [blocked_sigreturn] at hback
        rw [hback]
        exact hrest
      · rw [hb, Frame.start, if_neg hdef]
        exact hrest.notes

/-- In every run the blocked signals are right at every entry and every return of a handler exactly when every
handler is careful, however the handlers are nested. -/
theorem masks_right_iff (start h : Handling) (cs : List SigCall) (hframes : start.frames = [])
    (hfree : strip start.blocked = start.blocked) :
    Run (fun h c h' => Step h c h' ∧ Right h c h') start cs h ↔ Run (guarded Careful Step) start cs h := by
  have hstart : Tracked start := ⟨hfree, by rw [hframes]; trivial⟩
  refine Run.iff_of_invariant hstart (fun h c h' ht => ?_) fun h c h' ht hstep => ?_
  · constructor
    · rintro ⟨rfl, hright⟩
      exact ⟨(right_iff_careful ht c).mp hright, rfl⟩
    · rintro ⟨hcareful, rfl⟩
      exact ⟨rfl, (right_iff_careful ht c).mpr hcareful⟩
  · obtain ⟨rfl, hright⟩ := hstep
    exact ht.exec hright

def idle : Handling where
  task :=
    { state := .running
      exitCode := 0
      sigstate := signalInitProcess
      regs := ⟨fun _ => 0, 0x401000, 0x23, 0x202, 0x8000, 0x1B⟩
      memory := fun _ => 0 }
  frames := []

def usr1Action : SigAction := ⟨0x400000, sigbit sigusr2, 0⟩

/-- A handler that asks for nothing more to be blocked and unblocks its own signal leaves the blocked signals right. -/
theorem masks_right_iff_unblocking :
    Run (fun h c h' => Step h c h' ∧ Right h c h') idle
      [.sigaction sigusr1 (some ⟨0x400000, 0, 0⟩), .send sigusr1, .deliver fun _ => 0,
        .sigprocmask .unblock (some (sigbit sigusr1)), .sigreturn]
      ([SigCall.sigaction sigusr1 (some ⟨0x400000, 0, 0⟩), .send sigusr1, .deliver fun _ => 0,
        .sigprocmask .unblock (some (sigbit sigusr1)), .sigreturn].foldl exec idle) := by
  refine (masks_right_iff idle _ _ rfl (by decide)).mpr ?_
  refine .cons ⟨trivial, rfl⟩ (.cons ⟨trivial, rfl⟩ (.cons ⟨?_, rfl⟩ (.cons ⟨trivial, rfl⟩ (.cons ⟨?_, rfl⟩ (.nil _)))))
  · intro sig hsig _
    obtain rfl : sigusr1 = sig := Option.some.inj (Eq.trans (by decide +kernel) hsig)
    decide +kernel
  · intro f rest hframes _
    obtain ⟨rfl, rfl⟩ : (⟨sigusr1, true, 0, [⟨.unblock, sigbit sigusr1⟩]⟩ : Frame) = f ∧ [] = rest :=
      List.cons.inj (Eq.trans (by decide +kernel) hframes)
    rw [Undoes]
    decide +kernel

def handledOnce : List SigCall :=
  [.sigaction sigusr1 (some usr1Action), .send sigusr1, .deliver fun _ => 0, .sigreturn]

/-- A handler that changes no blocked signals itself is entered without the signals of its action blocked and leaves its
own signal blocked, and the second occurrence of the signal is not delivered. -/
theorem handler_leaves_signal_blocked :
    ((handledOnce.take 3).foldl exec idle).blocked = sigbit sigusr1 ∧
    (handledOnce.foldl exec idle).blocked = sigbit sigusr1 ∧
    (signalDeliverPending true (fun _ => 0) ((handledOnce ++ [SigCall.send sigusr1]).foldl exec idle).task).1 = none ∧
    ¬ ∀ start cs h, start.frames = [] → strip start.blocked = start.blocked → Run Step start cs h →
      Run (fun h c h' => Step h c h' ∧ Right h c h') start cs h := by
  refine ⟨by decide +kernel, by decide +kernel, by decide +kernel, fun hall => ?_⟩
  have hrun := hall idle handledOnce _ rfl (by decide) (.cons rfl (.cons rfl (.cons rfl (.cons rfl (.nil _)))))
  cases hrun with | cons h1 hrun =>
  cases hrun with | cons h2 hrun =>
  cases hrun with | cons h3 hrun =>
  cases hrun with | cons h4 hrun =>
  obtain ⟨rfl, -⟩ := h1
  obtain ⟨rfl, -⟩ := h2
  obtain ⟨rfl, -⟩ := h3
  obtain ⟨rfl, hright⟩ := h4
  have hback := hright ⟨sigusr1, true, 0, []⟩ [] (by decide +kernel) rfl
  exact absurd hback.2 (by decide +kernel)

end AetherOs.Signal
