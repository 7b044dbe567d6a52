import AetherOs.Net.Validation

/-! # DHCP leases -/

namespace AetherOs.Net

open Base

def optionsOffset : ℕ := 240

def optionsSize : ℕ := 308

def dhcpMagic : ℕ := 0x63538263

def optEnd : UInt8 := 255

/-- The position and the declared length of the first option with a code, in options that end at `stop`. -/
def optFind (mem : ℕ → UInt8) (stop : ℕ) (code : UInt8) (i : ℕ) : ℕ × ℕ :=
  if i < stop then
    if mem i = optEnd then (0, 0)
    else if mem i = 0 then optFind mem stop code (i + 1)
    else if stop ≤ i + 1 then (0, 0)
    else if mem i = code then (i + 2, (mem (i + 1)).toNat)
    else optFind mem stop code (i + 2 + (mem (i + 1)).toNat)
  else (0, 0)
termination_by stop - i

/-- The variable of `size` bytes, zero before, into which the option is copied. -/
def optValue (mem : ℕ → UInt8) (stop : ℕ) (code : UInt8) (size : ℕ) : ℕ :=
  let found := optFind mem stop code optionsOffset
  leNat (fun k => if k < found.2 then mem (found.1 + k) else 0) size 0

/-- The length of a datagram, and the buffer after it was received. -/
abbrev Poll := ℕ × (ℕ → UInt8)

def dhcpAccepts (xid wantType : ℕ) (p : Poll) : Bool :=
  decide (optionsOffset ≤ p.1 ∧ leNat p.2 4 4 = xid ∧ p.2 0 = 2 ∧ leNat p.2 4 236 = dhcpMagic ∧
    optValue p.2 p.1 53 1 = wantType)

/-- The polls up to the deadline. -/
def dhcpWait (xid wantType : ℕ) (polls : List Poll) : Option (ℕ → UInt8) :=
  (polls.find? (dhcpAccepts xid wantType)).map Prod.snd

structure Lease where
  ip : ℕ
  netmask : ℕ
  gateway : ℕ
  dns : ℕ
  leaseSec : ℕ
  deriving DecidableEq

def replyValue (reply : ℕ → UInt8) (code : UInt8) : ℕ := optValue reply (optionsOffset + optionsSize) code 4

def leaseOf (reply : ℕ → UInt8) : Lease :=
  ⟨leNat reply 4 16, replyValue reply 1, replyValue reply 3, replyValue reply 6, replyValue reply 51⟩

/-- The address and the server that are requested, and the lease. -/
def dhcpDiscover (xid : ℕ) (offers acks : List Poll) : Option ((ℕ × ℕ) × Option Lease) :=
  (dhcpWait xid 2 offers).map fun reply =>
    ((leNat reply 4 16, replyValue reply 54), (dhcpWait xid 5 acks).map leaseOf)

/-- From `i` on, options that lie before `stop` lead to the end mark. -/
def OptionsEnd (mem : ℕ → UInt8) (stop i : ℕ) : Bool :=
  if i < stop then
    if mem i = optEnd then true
    else if mem i = 0 then OptionsEnd mem stop (i + 1)
    else if stop ≤ i + 1 then false
    else OptionsEnd mem stop (i + 2 + (mem (i + 1)).toNat)
  else false
termination_by stop - i

def SamePoll (p p' : Poll) : Prop := p.1 = p'.1 ∧ AgreeBelow p.1 p.2 p'.2

variable {mem mem' : ℕ → UInt8} {n stop i : ℕ} {p p' : Poll}

theorem OptionsEnd.lt (h : OptionsEnd mem n i = true) : i < n := by
  by_contra hge
  rw [OptionsEnd, if_neg hge] at h
  cases h

theorem optFind_inside (code : UInt8) (hends : OptionsEnd mem n i = true) : ∃ r : ℕ × ℕ, r.1 + r.2 ≤ n ∧
    ∀ mem' stop, AgreeBelow n mem mem' → n ≤ stop → optFind mem' stop code i = r := by
  fun_induction OptionsEnd mem n i with
  | case1 i hi hend =>
    refine ⟨(0, 0), Nat.zero_le _, fun mem' stop h hstop => ?_⟩
    rw [optFind, if_pos (by omega), h i hi, if_pos hend]
  | case2 i hi hend hpad ih =>
    obtain ⟨r, hr, hfind⟩ := ih hends
    refine ⟨r, hr, fun mem' stop h hstop => ?_⟩
    rw [optFind, if_pos (by omega), h i hi, if_neg hend, if_pos hpad, hfind mem' stop h hstop]
  | case4 i hi hend hpad hlast ih =>
    obtain ⟨r, hr, hfind⟩ := ih hends
    refine ⟨if mem i = code then (i + 2, (mem (i + 1)).toNat) else r, ?_, fun mem' stop h hstop => ?_⟩
    · have := OptionsEnd.lt hends
      split_ifs
      · exact this.le
      · exact hr
    · rw [optFind, if_pos (by omega), h i hi, if_neg hend, if_neg hpad, if_neg (by omega), h (i + 1) (by omega),
        hfind mem' stop h hstop]
  | case3 | case5 => cases hends

theorem optValue_congr (code : UInt8) (size : ℕ) (hends : OptionsEnd mem n optionsOffset = true)
    (h : AgreeBelow n mem mem') (hstop : n ≤ stop) :
    optValue mem' stop code size = optValue mem stop code size := by
  obtain ⟨r, hr, hfind⟩ := optFind_inside code hends
  rw [optValue, optValue, hfind mem' stop h hstop, hfind mem stop (fun _ _ => rfl) hstop]
  refine leNat_congr fun k _ _ => ?_
  split_ifs with hk
  · exact h _ (by omega)
  · rfl

/-- The datagram fills at most the buffer, and its options end with the end mark. -/
def Complete (p : Poll) : Prop :=
  p.1 ≤ optionsOffset + optionsSize ∧ (optionsOffset ≤ p.1 → OptionsEnd p.2 p.1 optionsOffset = true)

theorem dhcpAccepts_congr (xid want : ℕ) (hp : Complete p) (h : SamePoll p p') :
    dhcpAccepts xid want p' = dhcpAccepts xid want p := by
  obtain ⟨n, mem⟩ := p
  obtain ⟨_, mem'⟩ := p'
  obtain ⟨rfl, h⟩ := h
  rw [dhcpAccepts, dhcpAccepts, decide_eq_decide]
  refine and_congr_right fun hn => ?_
  have hword (off : ℕ) (hoff : off + 4 ≤ optionsOffset) : leNat mem' 4 off = leNat mem 4 off :=
    leNat_congr fun j _ hj => h j (by omega)
  rw [hword 4 (by decide), hword 236 (by decide), h 0 (Nat.lt_of_lt_of_le (by decide) hn),
    optValue_congr 53 1 (hp.2 hn) h le_rfl]

theorem dhcpWait_congr {α : Type*} {g : (ℕ → UInt8) → α} {polls polls' : List Poll} (xid want : ℕ)
    (hg : ∀ p p', SamePoll p p' → Complete p → optionsOffset ≤ p.1 → g p'.2 = g p.2)
    (hsame : List.Forall₂ SamePoll polls polls') (hpolls : ∀ p ∈ polls, Complete p) :
    (dhcpWait xid want polls').map g = (dhcpWait xid want polls).map g := by
  induction hsame with
  | nil => rfl
  | @cons p p' ps ps' h _ ih =>
    obtain ⟨hp, hps⟩ := List.forall_mem_cons.mp hpolls
    have hrest := ih hps
    simp only [dhcpWait, List.find?_cons, dhcpAccepts_congr xid want hp h] at hrest ⊢
    cases haccepts : dhcpAccepts xid want p with
    | true => exact congrArg some (hg p p' h hp (of_decide_eq_true haccepts).1)
    | false => exact hrest

theorem replyValue_congr (code : UInt8) (h : SamePoll p p') (hp : Complete p) (hn : optionsOffset ≤ p.1) :
    replyValue p'.2 code = replyValue p.2 code := optValue_congr code 4 (hp.2 hn) h.2 hp.1

theorem offeredAddress_congr (h : SamePoll p p') (hn : optionsOffset ≤ p.1) : leNat p'.2 4 16 = leNat p.2 4 16 :=
  leNat_congr fun j _ hj => h.2 j (hj.trans_le ((show 16 + 4 ≤ optionsOffset by decide).trans hn))

/-- A reply of a type, with further option bytes, in a buffer with other bytes behind it. -/
def replyPoll (wantType : UInt8) (opts stale : List UInt8) : Poll :=
  (243 + opts.length, fun i => if i = 0 then 2 else if i < 236 then 0 else
    ([0x63, 0x82, 0x53, 0x63, 53, 1, wantType] ++ opts ++ stale).getD (i - 236) 0)

end AetherOs.Net
