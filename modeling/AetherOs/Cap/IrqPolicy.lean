import AetherOs.Cap.History

/-! # The policy on interrupt capabilities -/

namespace AetherOs.Cap

open Base

def capTypeNull : BitVec 32 := 0

def capTypeIrqline : BitVec 32 := 8

def capRightNone : BitVec 32 := 0

def secpolDenyIrqcapUserland : BitVec 32 := 0x01

def apkgCapMax : ℕ := 5

def procMaxCaps : ℕ := 16

def secmonCheckCapCreate (policy actorTid type : BitVec 32) : Bool :=
  !(decide (type = capTypeIrqline) && (policy &&& secpolDenyIrqcapUserland != 0) && decide (actorTid ≠ 0))

structure CapDecl where
  type : BitVec 8
  rights : BitVec 32

structure Manifest where
  fmtVersion : BitVec 16
  capCount : BitVec 8
  caps : Fin apkgCapMax → CapDecl

def Manifest.saved (m : Manifest) : List CapDecl :=
  if 2 ≤ m.fmtVersion.toNat ∧ 0 < m.capCount.toNat ∧ m.capCount.toNat ≤ apkgCapMax then
    (List.ofFn m.caps).take m.capCount.toNat
  else []

def CapDecl.isPlaceholder (d : CapDecl) : Bool :=
  decide (d.type.setWidth 32 = capTypeNull) || decide (d.rights = capRightNone)

def grantDecl (pid : BitVec 32) (st : List ℕ × CapTable) (d : CapDecl) : List ℕ × CapTable :=
  if d.isPlaceholder then st
  else if procMaxCaps ≤ st.1.length then st
  else
    let r := capCreate (d.type.setWidth 32) d.rights 0 pid st.2
    (if r.1 ≠ 0 then st.1 ++ [r.1] else st.1, r.2)

def grantManifest (pid : BitVec 32) (m : Manifest) (t : CapTable) : List ℕ × CapTable :=
  m.saved.foldl (grantDecl pid) ([], t)

structure PolicyState where
  policy : BitVec 32
  table : CapTable

def secmonInit (t : CapTable) : PolicyState := ⟨secpolDenyIrqcapUserland, t⟩

inductive PackageCall
  | install
  | exec (m : Manifest) (pid : Option (BitVec 32))
  | derive (parentId : ℕ) (reducedRights : BitVec 32)
  | transfer (id : ℕ) (newOwnerTid : BitVec 32)

def PackageCall.serve (t : CapTable) : PackageCall → CapTable
  | .install => t
  | .exec m pid => pid.elim t fun pid => (grantManifest pid m t).2
  | .derive parentId reducedRights => (capDerive parentId reducedRights t).2
  | .transfer id newOwnerTid => (capTransfer id newOwnerTid t).2

def PackageStep (s : PolicyState) (c : PackageCall) (s' : PolicyState) : Prop :=
  s' = { s with table := c.serve s.table }

def KernelOnly (t : CapTable) : Prop :=
  ∀ i < capTableSize, (t.slots i).valid = true → (t.slots i).type = capTypeIrqline → (t.slots i).ownerTid = 0

def Permitted (s : PolicyState) : PackageCall → Prop
  | .install => True
  | .exec m pid => ∀ tid ∈ pid, ∀ d ∈ m.saved, d.isPlaceholder = false →
      secmonCheckCapCreate s.policy tid (d.type.setWidth 32) = true
  | .derive _ _ => True
  | .transfer id newOwnerTid => ∀ i ∈ capGet s.table id,
      (s.table.slots i).rights &&& capRightGrant ≠ 0 →
        secmonCheckCapCreate s.policy newOwnerTid (s.table.slots i).type = true

variable {t : CapTable} {s s' : PolicyState} {c : Capability} {i : ℕ} {pid type : BitVec 32}

theorem secmonCheckCapCreate_iff : secmonCheckCapCreate secpolDenyIrqcapUserland pid type ↔
    (type = capTypeIrqline → pid = 0) := by
  have hpolicy : (secpolDenyIrqcapUserland &&& secpolDenyIrqcapUserland != 0) := by decide
  simp only [secmonCheckCapCreate, hpolicy, Bool.and_true, Bool.not_eq_true', Bool.and_eq_false_iff,
    decide_eq_false_iff_not, not_not]
  exact (imp_iff_not_or).symm

namespace KernelOnly

section

variable (h : KernelOnly t)
include h

theorem setSlot (hc : c.valid → c.type = capTypeIrqline → c.ownerTid = 0) :
    KernelOnly (setSlot i c t) := by
  intro j hj
  rw [slots_setSlot]
  split_ifs
  · exact hc
  · exact h j hj

theorem create (hc : type = capTypeIrqline → pid = 0) (rights : BitVec 32) (object : ℕ) :
    KernelOnly (capCreate type rights object pid t).2 := by
  obtain heq | ⟨i, -, heq⟩ := capCreate_cases type rights object pid t
  · rw [heq]
    exact h
  · rw [heq]
    intro j hj
    rw [slots_countUp]
    exact setSlot (t := issueId t) (by rw [KernelOnly, slots_issueId]; exact h) (fun _ => hc) j hj

theorem grantManifest {m : Manifest}
    (hm : ∀ d ∈ m.saved, d.isPlaceholder = false → d.type.setWidth 32 = capTypeIrqline → pid = 0) :
    KernelOnly (grantManifest pid m t).2 := by
  refine List.foldlRecOn (motive := fun st : List ℕ × CapTable => KernelOnly st.2) m.saved _ h fun st hst d hd => ?_
  rw [grantDecl]
  split_ifs with hplace
  · exact hst
  · exact hst
  · exact hst.create (hm d hd (by simpa using hplace)) d.rights 0

theorem addref (id : ℕ) : KernelOnly (capAddref id t) := by
  rw [capAddref]
  cases hget : capGet t id with
  | none => exact h
  | some i =>
    obtain ⟨hi, hvalid, -⟩ := capGet_some hget
    exact h.setSlot fun _ => h i hi hvalid

theorem derive (parentId : ℕ) (rights : BitVec 32) : KernelOnly (capDerive parentId rights t).2 := by
  obtain heq | ⟨i, j, -, hget, -, -, heq⟩ := capDerive_cases parentId rights t
  · rw [heq]
    exact h
  · obtain ⟨hj, hvalid, -⟩ := capGet_some hget
    have hnew : KernelOnly (Cap.setSlot i (derivedCap t j parentId rights) (issueId t)) :=
      setSlot (by rw [KernelOnly, slots_issueId]; exact h) fun _ => h j hj hvalid
    rw [heq]
    intro x hx
    rw [slots_countUp]
    exact hnew.addref parentId x hx

theorem transfer {id : ℕ} {tid : BitVec 32}
    (hc : ∀ i ∈ capGet t id, (t.slots i).rights &&& capRightGrant ≠ 0 → (t.slots i).type = capTypeIrqline → tid = 0) :
    KernelOnly (capTransfer id tid t).2 := by
  rw [capTransfer]
  cases hget : capGet t id with
  | none => exact h
  | some i =>
    dsimp only
    split
    · exact h
    · rename_i hgrant
      exact h.setSlot fun _ => hc i hget hgrant

end

theorem step {c : PackageCall} (h : KernelOnly s.table) (hpolicy : s.policy = secpolDenyIrqcapUserland)
    (hstep : guarded Permitted PackageStep s c s') :
    KernelOnly s'.table ∧ s'.policy = secpolDenyIrqcapUserland := by
  obtain ⟨hc, rfl⟩ := hstep
  refine ⟨?_, hpolicy⟩
  cases c with
  | install => exact h
  | exec m pid =>
    cases pid with
    | none => exact h
    | some pid =>
      refine h.grantManifest fun d hd hplace => ?_
      have hcheck := hc pid rfl d hd hplace
      rw [hpolicy] at hcheck
      exact secmonCheckCapCreate_iff.mp hcheck
  | derive parentId rights => exact h.derive parentId rights
  | transfer id tid =>
    refine h.transfer fun i hi hgrant => ?_
    have hcheck := hc i hi hgrant
    rw [hpolicy] at hcheck
    exact secmonCheckCapCreate_iff.mp hcheck

end KernelOnly

/-- Interrupt capabilities stay in the kernel, if every call passes the check that the monitor has. -/
theorem irqline_kernel_only {calls : List PackageCall} (h : KernelOnly t)
    (hrun : Run (guarded Permitted PackageStep) (secmonInit t) calls s) : KernelOnly s.table := by
  have hkept := hrun.invariant
    (I := fun s : PolicyState => KernelOnly s.table ∧ s.policy = secpolDenyIrqcapUserland)
    (fun _ _ _ hs hstep => hs.1.step hs.2 hstep) ⟨h, rfl⟩
  exact hkept.1

def oneCap (type : BitVec 8) (rights : BitVec 32) : Manifest := ⟨2, 1, fun _ => ⟨type, rights⟩⟩

theorem kernelOnly_init : KernelOnly capTableInit := fun _ _ hvalid => (Bool.false_ne_true hvalid).elim

/-- A package declares a file capability. -/
theorem irqline_kernel_only_file : ∃ s, Run (guarded Permitted PackageStep) (secmonInit capTableInit)
    [.install, .exec (oneCap 5 0x11) (some 7), .transfer 1 9] s ∧ KernelOnly s.table := by
  have hdecls : ∀ d ∈ (oneCap 5 0x11).saved, d.isPlaceholder = false →
      secmonCheckCapCreate secpolDenyIrqcapUserland 7 (d.type.setWidth 32) := by decide +kernel
  have hexec : Permitted (secmonInit capTableInit) (.exec (oneCap 5 0x11) (some 7)) := by
    intro tid htid d hd hplace
    obtain rfl := Option.some.inj htid
    exact hdecls d hd hplace
  have hget : capGet (PackageCall.serve capTableInit (.exec (oneCap 5 0x11) (some 7))) 1 = some 0 := by
    decide +kernel
  have htransfer : Permitted (secmonInit (PackageCall.serve capTableInit (.exec (oneCap 5 0x11) (some 7))))
      (.transfer 1 9) := by
    intro i hi _
    obtain rfl := Option.some.inj (hget.symm.trans hi)
    decide +kernel
  have hrun : Run (guarded Permitted PackageStep) (secmonInit capTableInit)
      [.install, .exec (oneCap 5 0x11) (some 7), .transfer 1 9] _ :=
    .cons ⟨trivial, rfl⟩ (.cons ⟨hexec, rfl⟩ (.cons ⟨htransfer, rfl⟩ (.nil _)))
  exact ⟨_, hrun, irqline_kernel_only kernelOnly_init hrun⟩

/-- A package that declares an interrupt capability gets one. -/
theorem irqline_declared : KernelOnly capTableInit ∧ ∃ s, Run PackageStep (secmonInit capTableInit)
    [.install, .exec (oneCap 8 0x01) (some 7)] s ∧ ¬ KernelOnly s.table := by
  refine ⟨kernelOnly_init, _, .cons rfl (.cons rfl (.nil _)), fun h => ?_⟩
  exact absurd (h 0 (by decide) (by decide +kernel) (by decide +kernel)) (by decide +kernel)

end AetherOs.Cap
