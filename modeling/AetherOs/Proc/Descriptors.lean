import AetherOs.Proc.ReadyQueue

/-! # Open files -/

namespace AetherOs.Proc

open Base Function Kernel

def Refers (k : Kernel) (f p fd : ℕ) : Prop :=
  (k.proc p).state ≠ .unused ∧ fd < maxFds ∧ ((k.proc p).fds fd).file = some f

def ClosedOnce (k : Kernel) : Prop :=
  ∀ f < k.nextFile, ((∃ p fd, Refers k f p fd) → k.closes f = 0) ∧
    ((¬ ∃ p fd, Refers k f p fd) → k.closes f = 1)

def ProcStep (k : Kernel) (c : ProcCall) (k' : Kernel) : Prop := k' = k.exec c

def Unshared (k : Kernel) : ProcCall → Prop
  | .create _ => True
  | .fork parent _ => (k.proc parent).state ≠ .unused ∧ ∀ fd < maxFds, ((k.proc parent).fds fd).file = none
  | .exit p _ => (k.proc p).state ≠ .unused
  | .open p _ _ _ => (k.proc p).state ≠ .unused
  | .close p _ => (k.proc p).state ≠ .unused
  | .dup p fd => (k.proc p).state ≠ .unused ∧ (fd < maxFds → ((k.proc p).fds fd).file = none)
  | .dup2 p oldFd newFd => (k.proc p).state ≠ .unused ∧
      (oldFd ≠ newFd → oldFd < maxFds → ((k.proc p).fds oldFd).file = none)

instance (k : Kernel) : (c : ProcCall) → Decidable (Unshared k c)
  | .create _ => inferInstanceAs (Decidable True)
  | .fork parent _ => inferInstanceAs (Decidable ((k.proc parent).state ≠ .unused ∧
      ∀ fd < maxFds, ((k.proc parent).fds fd).file = none))
  | .exit p _ => inferInstanceAs (Decidable ((k.proc p).state ≠ .unused))
  | .open p _ _ _ => inferInstanceAs (Decidable ((k.proc p).state ≠ .unused))
  | .close p _ => inferInstanceAs (Decidable ((k.proc p).state ≠ .unused))
  | .dup p fd => inferInstanceAs (Decidable ((k.proc p).state ≠ .unused ∧
      (fd < maxFds → ((k.proc p).fds fd).file = none)))
  | .dup2 p oldFd newFd => inferInstanceAs (Decidable ((k.proc p).state ≠ .unused ∧
      (oldFd ≠ newFd → oldFd < maxFds → ((k.proc p).fds oldFd).file = none)))

structure Exclusive (k : Kernel) : Prop where
  sole : ∀ f p fd q e, Refers k f p fd → Refers k f q e → p = q ∧ fd = e
  issued : ∀ f p fd, Refers k f p fd → f < k.nextFile
  once : ClosedOnce k
  fresh : ∀ f, k.nextFile ≤ f → k.closes f = 0

variable {k k' : Kernel} {f p q fd e : ℕ} {proc : Process} {entry : FdEntry}

theorem refers_setProc : Refers (k.setProc p proc) f q e ↔
    if q = p then proc.state ≠ .unused ∧ e < maxFds ∧ (proc.fds e).file = some f else Refers k f q e := by
  have hproc : (k.setProc p proc).proc q = if q = p then proc else k.proc q := procs_setProc
  rw [Refers, hproc]
  split
  · rfl
  · rfl

theorem refers_setFd (hp : (k.proc p).state ≠ .unused) (hfd : fd < maxFds) : Refers (k.setFd p fd entry) f q e ↔
    if q = p ∧ e = fd then entry.file = some f else Refers k f q e := by
  rw [setFd, refers_setProc]
  by_cases hq : q = p
  · subst hq
    rw [if_pos rfl]
    by_cases he : e = fd
    · subst he
      rw [if_pos ⟨rfl, rfl⟩]
      simp [hp, hfd]
    · rw [if_neg fun hbad => he hbad.2]
      simp only [update_of_ne he]
      rfl
  · rw [if_neg hq, if_neg fun hbad => hq hbad.1]

namespace Exclusive

theorem congr (h : Exclusive k) (hrefers : ∀ f q e, Refers k' f q e ↔ Refers k f q e)
    (hnext : k'.nextFile = k.nextFile) (hcloses : k'.closes = k.closes) : Exclusive k' := by
  refine ⟨fun f p fd q e hp hq => ?_, fun f p fd hp => ?_, fun f hf => ?_, fun f hf => ?_⟩
  · exact h.sole f p fd q e ((hrefers _ _ _).mp hp) ((hrefers _ _ _).mp hq)
  · rw [hnext]
    exact h.issued f p fd ((hrefers _ _ _).mp hp)
  · rw [hnext] at hf
    rw [hcloses]
    simp only [hrefers]
    exact h.once f hf
  · rw [hnext] at hf
    rw [hcloses]
    exact h.fresh f hf

theorem boot : Exclusive boot := by
  have hnone : ∀ f p fd, ¬ Refers Kernel.boot f p fd := fun f p fd hbad => hbad.1 rfl
  refine ⟨fun f p fd q e hp => absurd hp (hnone f p fd), fun f p fd hp => absurd hp (hnone f p fd),
    fun f hf => absurd hf (Nat.not_lt_zero f), fun _ _ => rfl⟩

theorem occupy (h : Exclusive k) (halloc : allocProcessSlot k = some p) {list : List ℕ} {pid : ℕ}
    (hnone : proc.state ≠ .unused → ∀ e < maxFds, (proc.fds e).file = none) :
    Exclusive { k.setProc p proc with processList := list, nextPid := pid } := by
  have hfree : (k.proc p).state = .unused := of_decide_eq_true (search_some halloc).2.2.1
  refine h.congr (fun f q e => ?_) rfl rfl
  change Refers (k.setProc p proc) f q e ↔ _
  rw [refers_setProc]
  split_ifs with heq
  · subst heq
    refine iff_of_false (fun ⟨hstate, he, hfile⟩ => ?_) fun hbad => hbad.1 hfree
    rw [hnone hstate e he] at hfile
    cases hfile
  · rfl

section

variable (h : Exclusive k) (hp : (k.proc p).state ≠ .unused)
include h hp

theorem close : Exclusive (fdClose p fd k) := by
  rw [fdClose]
  split_ifs with hfd
  · exact h
  · split
    · exact h
    · rename_i f hfile
      have hown : Refers k f p fd := ⟨hp, not_le.mp hfd, hfile⟩
      have hrefers : ∀ g q e, Refers { k.setFd p fd ⟨none, 0, 0⟩ with
          closes := update k.closes f (k.closes f + 1) } g q e ↔
          Refers k g q e ∧ ¬ (q = p ∧ e = fd) := fun g q e => by
        change Refers (k.setFd p fd ⟨none, 0, 0⟩) g q e ↔ _
        rw [refers_setFd hp (not_le.mp hfd)]
        split_ifs with heq
        · exact iff_of_false (fun hbad => (nomatch hbad)) fun hbad => hbad.2 heq
        · exact (and_iff_left heq).symm
      refine ⟨fun g q e q' e' hq hq' => ?_, fun g q e hq => ?_, fun g hg => ?_, fun g hg => ?_⟩
      · exact h.sole g q e q' e' ((hrefers g q e).mp hq).1 ((hrefers g q' e').mp hq').1
      · exact h.issued g q e ((hrefers g q e).mp hq).1
      · change (_ → update k.closes f (k.closes f + 1) g = 0) ∧
          (_ → update k.closes f (k.closes f + 1) g = 1)
        simp only [hrefers]
        by_cases hgf : g = f
        · subst hgf
          rw [update_self, (h.once g hg).1 ⟨p, fd, hown⟩]
          refine ⟨fun ⟨q, e, hq, hne⟩ => absurd ?_ hne, fun _ => rfl⟩
          exact h.sole g q e p fd hq hown
        · rw [update_of_ne hgf]
          have hsame : (∃ q e, Refers k g q e ∧ ¬ (q = p ∧ e = fd)) ↔ ∃ q e, Refers k g q e := by
            refine ⟨fun ⟨q, e, hq, _⟩ => ⟨q, e, hq⟩, fun ⟨q, e, hq⟩ => ⟨q, e, hq, ?_⟩⟩
            rintro ⟨rfl, rfl⟩
            exact hgf (Option.some.inj (hq.2.2.symm.trans hfile))
          rw [hsame]
          exact h.once g hg
      · change update k.closes f (k.closes f + 1) g = 0
        have hf := h.issued f p fd hown
        have hne : g ≠ f := by
          rintro rfl
          exact absurd hf (not_lt.mpr hg)
        rw [update_of_ne hne]
        exact h.fresh g hg

theorem openFile {node flags : ℕ} {memory : Bool} : Exclusive (fdOpen p node flags memory k).2 := by
  rw [fdOpen]
  split
  · exact h
  · rename_i fd halloc
    obtain ⟨-, hfd, hfree, -⟩ := search_some halloc
    rw [Nat.zero_add] at hfd
    split
    · have hrefers : ∀ g q e, Refers { k.setFd p fd ⟨some k.nextFile, flags, 0⟩ with
          files := update k.files k.nextFile ⟨node, 0, flags, 1⟩
          nextFile := k.nextFile + 1 } g q e ↔ Refers k g q e ∨ g = k.nextFile ∧ q = p ∧ e = fd := fun g q e => by
        change Refers (k.setFd p fd ⟨some k.nextFile, flags, 0⟩) g q e ↔ _
        rw [refers_setFd hp hfd]
        split_ifs with heq
        · obtain ⟨rfl, rfl⟩ := heq
          have hnot : ¬ Refers k g q e := fun hbad => by
            rw [hbad.2.2] at hfree
            cases hfree
          rw [or_iff_right hnot, Option.some.injEq]
          exact ⟨fun heq => ⟨heq.symm, rfl, rfl⟩, fun heq => heq.1.symm⟩
        · exact (or_iff_left fun hbad => heq hbad.2).symm
      refine ⟨fun g q e q' e' hq hq' => ?_, fun g q e hq => ?_, fun g hg => ?_, fun g hg => ?_⟩
      · rcases (hrefers g q e).mp hq with hold | ⟨hnew, hqp, hefd⟩
        · rcases (hrefers g q' e').mp hq' with hold' | ⟨hnew', -, -⟩
          · exact h.sole g q e q' e' hold hold'
          · exact absurd (h.issued g q e hold) (by omega)
        · rcases (hrefers g q' e').mp hq' with hold' | ⟨-, hqp', hefd'⟩
          · exact absurd (h.issued g q' e' hold') (by omega)
          · exact ⟨hqp.trans hqp'.symm, hefd.trans hefd'.symm⟩
      · change g < k.nextFile + 1
        rcases (hrefers g q e).mp hq with hq | ⟨rfl, -, -⟩
        · exact (h.issued g q e hq).trans (Nat.lt_succ_self _)
        · exact Nat.lt_succ_self _
      · change g < k.nextFile + 1 at hg
        change (_ → k.closes g = 0) ∧ (_ → k.closes g = 1)
        simp only [hrefers]
        rcases Nat.lt_succ_iff_lt_or_eq.mp hg with hold | rfl
        · have hsame : (∃ q e, Refers k g q e ∨ g = k.nextFile ∧ q = p ∧ e = fd) ↔ ∃ q e, Refers k g q e := by
            simp only [hold.ne, false_and, or_false]
          rw [hsame]
          exact h.once g hold
        · exact ⟨fun _ => h.fresh _ le_rfl, fun hnot => absurd ⟨p, fd, .inr ⟨rfl, rfl, rfl⟩⟩ hnot⟩
      · change k.nextFile + 1 ≤ g at hg
        exact h.fresh g (by omega)
    · exact h

theorem exit {code : ℤ} : Exclusive (processExit p code k) := by
  rw [processExit]
  split
  · exact h
  · have hzombie : Exclusive (k.setProc p { k.proc p with exitCode := code, state := .zombie }) := by
      refine h.congr (fun f q e => ?_) rfl rfl
      rw [refers_setProc]
      split
      · rename_i heq
        subst heq
        simp only [Refers, hp, ne_eq, reduceCtorEq, not_false_eq_true, true_and]
      · rfl
    have hstate : ((k.setProc p { k.proc p with exitCode := code, state := .zombie }).proc p).state ≠ .unused := by
      change ((setProc p _ k.sched).procs p).state ≠ .unused
      rw [procs_setProc, if_pos rfl]
      exact ProcState.noConfusion
    generalize k.setProc p { k.proc p with exitCode := code, state := .zombie } = k₁ at hzombie hstate
    -- the descriptors below the counter are closed
    obtain ⟨hclosed, -, hnone⟩ := closeFds_invariant (p := p) (k := k₁)
      (fun n u => Exclusive u ∧ (u.proc p).state ≠ .unused ∧ ∀ e < n, ((u.proc p).fds e).file = none)
      ⟨hzombie, hstate, fun e he => absurd he (Nat.not_lt_zero e)⟩ fun n hn u ⟨hu, hlive, hbelow⟩ => by
        refine ⟨hu.close hlive, ?_, fun e he => ?_⟩
        · rw [fdClose]
          split
          · exact hlive
          · split
            · exact hlive
            · change ((setProc p _ u.sched).procs p).state ≠ .unused
              rw [procs_setProc, if_pos rfl]
              exact hlive
        · rw [fdClose, if_neg (not_le.mpr hn)]
          split
          · rename_i hfile
            rcases Nat.lt_succ_iff_lt_or_eq.mp he with hlt | rfl
            · exact hbelow e hlt
            · exact hfile
          · change (((setProc p _ u.sched).procs p).fds e).file = none
            rw [procs_setProc, if_pos rfl]
            by_cases heq : e = n
            · rw [heq]
              simp
            · simp only [update_of_ne heq]
              exact hbelow e (by omega)
    generalize closeFds p k₁ = u at hclosed hnone
    have hfreed : Exclusive (freeSlot p u) := by
      refine hclosed.congr (fun f q e => ?_) rfl rfl
      change Refers (u.setProc p _) f q e ↔ _
      rw [refers_setProc]
      split
      · rename_i heq
        subst heq
        refine iff_of_false (fun hbad => hbad.1 rfl) fun ⟨_, he, hfile⟩ => ?_
        rw [hnone e he] at hfile
        cases hfile
      · rfl
    rw [leaveCpu]
    split
    · exact hfreed.congr (fun _ _ _ => Iff.rfl) rfl rfl
    · exact hfreed

end

theorem step {c : ProcCall} (h : Exclusive k) (hok : Unshared k c) (hstep : ProcStep k c k') : Exclusive k' := by
  subst hstep
  cases c with
  | create memory =>
    simp only [exec, processCreate]
    split
    · exact h
    · rename_i p halloc
      split
      · exact h.occupy halloc fun _ _ _ => rfl
      · exact h.occupy halloc fun _ _ _ => rfl
  | fork parent memory =>
    simp only [exec, processFork]
    split
    · exact h
    · rename_i child halloc
      split
      · exact h.occupy halloc fun _ e he => hok.2 e he
      · exact h.occupy halloc fun hbad => absurd rfl hbad
  | exit p code => exact h.exit hok
  | «open» p node flags memory => exact h.openFile hok
  | close p fd => exact h.close hok
  | dup p fd =>
    simp only [exec, fdDup]
    split
    · exact h
    · rename_i hfd
      rw [hok.2 (not_le.mp hfd)]
      exact h
  | dup2 p oldFd newFd =>
    simp only [exec, fdDup2]
    split
    · exact h
    · rename_i hfd
      by_cases heq : oldFd = newFd
      · rw [if_pos heq]
        split
        · exact h
        · exact h
      · rw [hok.2 heq (not_le.mp fun hbad => hfd (.inl hbad))]
        exact h

end Exclusive

/-- In every run in which no call makes two descriptors refer to one open file, every open file is
closed once, when its descriptor is closed. -/
theorem files_closed_once {calls : List ProcCall} (hrun : Run (guarded Unshared ProcStep) boot calls k) :
    ClosedOnce k :=
  (hrun.invariant (fun _ _ _ h hstep => h.step hstep.1 hstep.2) Exclusive.boot).once

def twoProcesses : Kernel :=
  ((((((boot.exec (.create true)).exec (.create true)).exec (.open 0 7 0 true)).exec
    (.open 0 8 0 true)).exec (.open 1 7 0 true)).exec (.close 0 0)).exec (.exit 1 0)

/-- The files of the two processes are closed once. -/
theorem files_closed_once_twoProcesses : ClosedOnce twoProcesses := by
  have hrun : Run (guarded Unshared ProcStep) boot [.create true, .create true, .open 0 7 0 true,
      .open 0 8 0 true, .open 1 7 0 true, .close 0 0, .exit 1 0] twoProcesses :=
    .cons ⟨trivial, rfl⟩ (.cons ⟨trivial, rfl⟩ (.cons ⟨by decide +kernel, rfl⟩ (.cons ⟨by decide +kernel, rfl⟩
      (.cons ⟨by decide +kernel, rfl⟩ (.cons ⟨by decide +kernel, rfl⟩ (.cons ⟨by decide +kernel, rfl⟩
        (.nil _)))))))
  exact files_closed_once hrun

def duplicated : Kernel :=
  [.create true, .open 0 7 0 true, .dup 0 0, .close 0 0].foldl exec boot

/-- The file is closed while the second descriptor refers to it, and again with the second one. -/
theorem file_closed_twice :
    Run ProcStep boot [.create true, .open 0 7 0 true, .dup 0 0, .close 0 0] duplicated ∧
    Refers duplicated 0 0 1 ∧ duplicated.closes 0 = 1 ∧ (fdClose 0 1 duplicated).closes 0 = 2 := by
  refine ⟨.cons rfl (.cons rfl (.cons rfl (.cons rfl (.nil _)))), ?_, by decide +kernel, by decide +kernel⟩
  exact ⟨by decide +kernel, by decide, by decide +kernel⟩

end AetherOs.Proc
