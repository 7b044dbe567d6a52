import AetherOs.Base.Run
import AetherOs.BlockCache.Reflects

/-! # The block cache is transparent -/

namespace AetherOs.BlockCache

open Base Cache Nat

inductive Call
  | get (drive : ℤ) (lba : ℕ)
  | edit (drive : ℤ) (lba : ℕ) (change : Block → Block)
  | writeThrough (drive : ℤ) (lba : ℕ) (data : Block)
  | flush (drive : ℤ)
  | flushAll

def exec (c : Cache) : Call → Option Cache
  | .get drive lba => (bcacheGet drive lba c).map Prod.snd
  | .edit drive lba change =>
    match bcacheGet drive lba c with
    | none => none
    | some (none, c) => some c
    | some (some i, c) =>
      some (bcacheDirty drive lba (c.setSlot i { c.slots i with data := change (c.slots i).data }))
  | .writeThrough drive lba data => (bcacheWriteThrough drive lba data c).map Prod.snd
  | .flush drive => some (bcacheFlush drive c).2
  | .flushAll => some (bcacheFlushAll c).2

def CacheStep (c : Cache) (call : Call) (c' : Cache) : Prop := exec c call = some c'

def plainExec (stored : Sectors) : Call → Sectors
  | .get _ _ => stored
  | .edit drive lba change => stored.store drive lba (change (stored drive lba))
  | .writeThrough drive lba data => stored.store drive lba data
  | .flush _ => stored
  | .flushAll => stored

def OnDrive (c : Cache) : Call → Prop
  | .get drive _ => c.Ready drive
  | .edit drive _ _ => c.Ready drive
  | .writeThrough drive _ _ => c.Ready drive
  | .flush drive => c.Ready drive
  | .flushAll => True

def Served (c : Cache) : Call → Prop
  | .get drive lba => c.Serves drive lba
  | .edit drive lba _ => c.Serves drive lba
  | .writeThrough drive lba _ => c.Serves drive lba
  | .flush _ => True
  | .flushAll => True

variable {c c' : Cache} {stored : Sectors} {call : Call} {calls : List Call}

theorem exec_spec (h : Reflects c stored) (hdrive : OnDrive c call) :
    (exec c call = none ∧ ¬ Served c call) ∨
      (Served c call ∧ ∃ c', exec c call = some c' ∧ Reflects c' (plainExec stored call)) := by
  cases call with
  | get drive lba =>
    rcases bcacheGet_spec h hdrive with ⟨hfail, hserves⟩ | ⟨hserves, i, c', hget, -, hc', -⟩
    · exact .inl ⟨by rw [exec, hfail]; rfl, hserves⟩
    · exact .inr ⟨hserves, c', by rw [exec, hget]; rfl, hc'⟩
  | edit drive lba change =>
    rcases bcacheGet_spec h hdrive with ⟨hfail, hserves⟩ | ⟨hserves, i, c', hget, hi, hc', -⟩
    · exact .inl ⟨by rw [exec, hfail], hserves⟩
    · refine .inr ⟨hserves, _, by rw [exec, hget], ?_⟩
      rw [plainExec, ← hc'.held i drive lba hi]
      exact bcacheDirty_spec hc' hi _
  | writeThrough drive lba data =>
    rcases bcacheWriteThrough_spec h hdrive data with ⟨hfail, hserves⟩ | ⟨hserves, c', hwrite, hc', -⟩
    · exact .inl ⟨by rw [exec, hfail]; rfl, hserves⟩
    · exact .inr ⟨hserves, c', by rw [exec, hwrite]; rfl, hc'⟩
  | flush drive => exact .inr ⟨trivial, _, rfl, (bcacheFlush_spec h drive).1⟩
  | flushAll => exact .inr ⟨trivial, _, rfl, (bcacheFlushAll_spec h).1⟩

theorem reflects_empty (hempty : ∀ i < slotCount, (c.slots i).valid = false) : Reflects c c.disk := by
  have hnone : ∀ i d l, ¬ c.Holds i d l := by
    rintro i d l ⟨hi, hmatch⟩
    have hvalid := (matches_iff.mp hmatch).1
    rw [hempty i hi] at hvalid
    cases hvalid
  exact ⟨fun i _ d l hi => absurd hi (hnone i d l), fun i d l hi => absurd hi (hnone i d l),
    fun i d l hi => absurd hi (hnone i d l), fun _ _ _ => rfl, fun i d l hi => absurd hi (hnone i d l)⟩

theorem reflects_run (h : Reflects c stored) (hrun : Run (guarded OnDrive CacheStep) c calls c') :
    Reflects c' (calls.foldl plainExec stored) := by
  refine hrun.simulation (fun c stored call c' h hstep => ?_) h
  obtain ⟨hdrive, hexec⟩ := hstep
  rcases exec_spec h hdrive with ⟨hfail, -⟩ | ⟨-, c'', hdone, hc''⟩
  · rw [CacheStep, hfail] at hexec
    cases hexec
  · rw [CacheStep, hdone] at hexec
    rw [← Option.some.inj hexec]
    exact hc''

/-- After every run of calls on present drives from an empty cache: at most one slot holds a sector, the next call
returns exactly if it is served, to get a sector gives the bytes that were last stored, and to write all changed
sectors puts them on the drives. -/
theorem cache_transparent (hempty : ∀ i < slotCount, (c.slots i).valid = false)
    (hrun : Run (guarded OnDrive CacheStep) c calls c') :
    (∀ i j drive lba, c'.Holds i drive lba → c'.Holds j drive lba → i = j) ∧
      (∀ call, OnDrive c' call → ((∃ c'', CacheStep c' call c'') ↔ Served c' call)) ∧
      (∀ drive lba r c'', c'.Ready drive → bcacheGet drive lba c' = some (r, c'') →
        ∃ i, r = some i ∧ (c''.slots i).data = calls.foldl plainExec c.disk drive lba) ∧
      (bcacheFlushAll c').2.disk = calls.foldl plainExec c.disk := by
  have h := reflects_run (reflects_empty hempty) hrun
  refine ⟨h.unique, fun call hdrive => ?_, fun drive lba r c'' hready hget => ?_, (bcacheFlushAll_spec h).2.1⟩
  · rcases exec_spec h hdrive with ⟨hfail, hserved⟩ | ⟨hserved, c'', hdone, -⟩
    · refine ⟨?_, fun hbad => absurd hbad hserved⟩
      rintro ⟨c'', hexec⟩
      rw [CacheStep, hfail] at hexec
      cases hexec
    · exact ⟨fun _ => hserved, fun _ => ⟨c'', hdone⟩⟩
  · rcases bcacheGet_spec h hready with ⟨hfail, -⟩ | ⟨-, i, c₁, hdone, hi, hc₁, -⟩
    · rw [hfail] at hget
      cases hget
    · rw [hdone] at hget
      obtain ⟨rfl, rfl⟩ := Prod.mk.inj (Option.some.inj hget)
      exact ⟨i, rfl, hc₁.held i drive lba hi⟩

def start : Cache where
  slots := fun _ => ⟨0, 0, fun _ => 0, false, false, 0⟩
  lruClock := 0
  hits := 0
  misses := 0
  writes := 0
  present := fun _ => true
  disk := fun _ _ _ => 0

/-- A sector that was written through is read back, and is on its drive after all changed sectors were written. -/
theorem cache_transparent_start :
    ∃ c', Run (guarded OnDrive CacheStep) start [.writeThrough 0 7 fun _ => 1] c' ∧
      (bcacheFlushAll c').2.disk 0 7 = fun _ => 1 := by
  have hready : start.Ready 0 := ⟨by decide, by decide, rfl⟩
  have hreturn : (exec start (.writeThrough 0 7 fun _ => 1)).isSome := by decide +kernel
  obtain ⟨c', hexec⟩ := Option.isSome_iff_exists.mp hreturn
  have hrun : Run (guarded OnDrive CacheStep) start [.writeThrough 0 7 fun _ => 1] c' := .cons ⟨hready, hexec⟩ (.nil c')
  refine ⟨c', hrun, ?_⟩
  rw [(cache_transparent (fun _ _ => rfl) hrun).2.2.2, List.foldl_cons, List.foldl_nil, plainExec, store_self]

section Stuck

variable {i k m : ℕ}

structure Filling (k : ℕ) (c : Cache) : Prop where
  stands : ∃ stored, Reflects c stored
  ready : c.Ready 0
  clock : c.lruClock < uintSize
  holds : ∀ i < k, c.Holds i 0 i
  free : ∀ i, k ≤ i → i < slotCount → (c.slots i).valid = false

theorem scanClean_free {slots : ℕ → Slot} {steps a oldest : ℕ} {best : Option ℕ} (hle : a ≤ k) (hlt : k < a + steps)
    (hfree : (slots k).valid = false) (hused : ∀ i, a ≤ i → i < k → (slots i).valid) :
    scanClean slots steps a best oldest = .inl k := by
  induction steps generalizing a best oldest with
  | zero => omega
  | succ steps ih =>
    rw [scanClean]
    rcases eq_or_lt_of_le hle with rfl | hlater
    · rw [if_pos hfree]
    · rw [if_neg (by rw [hused a (le_refl a) hlater]; exact Bool.noConfusion)]
      split
      · exact ih (by omega) (by omega) fun i hi hik => hused i (by omega) hik
      · exact ih (by omega) (by omega) fun i hi hik => hused i (by omega) hik

theorem Filling.next (h : Filling k c) (hk : k < slotCount) :
    ∃ c', guarded OnDrive CacheStep c (.get 0 k) c' ∧ Filling (k + 1) c' := by
  obtain ⟨stored, hstands⟩ := h.stands
  have hvalid : ∀ i < k, (c.slots i).valid := fun i hi => (matches_iff.mp (h.holds i hi).2).1
  have hnone : findSlot 0 k c = none := by
    cases hfind : findSlot 0 k c with
    | none => rfl
    | some i =>
      obtain ⟨hi, hmatch⟩ := findSlot_some hfind
      by_cases hik : i < k
      · have hlba := (matches_unique (h.holds i hik).2 hmatch).2
        omega
      · have hbad := (matches_iff.mp hmatch).1
        rw [h.free i (by omega) hi] at hbad
        cases hbad
  have hscan : scanClean c.slots slotCount 0 none (uintSize - 1) = .inl k :=
    scanClean_free (zero_le k) (by omega) (h.free k (le_refl k) hk) fun i _ hi => hvalid i hi
  have hevict : evictSlot { c with misses := (c.misses + 1) % uintSize } =
      some (k, { c with misses := (c.misses + 1) % uintSize }) := by
    rw [evictSlot]
    dsimp only
    rw [hscan]
  have hpresent : ¬ c.present 0 = false := by
    rw [h.ready.2.2]
    exact Bool.noConfusion
  have hget : bcacheGet 0 k c = some (some k, ({ c with misses := (c.misses + 1) % uintSize }.tick.setSlot k
      ⟨k, 0, c.disk 0 k, true, false, (c.lruClock + 1) % uintSize⟩)) := by
    rw [bcacheGet, if_neg (by decide), hnone]
    dsimp only
    rw [hevict]
    exact if_neg hpresent
  rcases bcacheGet_spec hstands h.ready with ⟨hfail, -⟩ | ⟨-, i, c', hdone, hi, hc', hready⟩
  · rw [hfail] at hget
    cases hget
  · obtain ⟨heq, rfl⟩ := Prod.mk.inj (Option.some.inj (hdone.symm.trans hget))
    obtain rfl := Option.some.inj heq
    refine ⟨_, ⟨h.ready, by rw [CacheStep, exec, hget]; rfl⟩, ⟨stored, hc'⟩,
      h.ready, mod_lt _ (by decide), fun j hj => ?_, fun j hj hlt => ?_⟩
    · by_cases hji : j = i
      · rw [hji]
        exact hi
      · refine ⟨by omega, ?_⟩
        rw [slots_setSlot_of_ne hji]
        exact (h.holds j (by omega)).2
    · rw [slots_setSlot_of_ne (by omega)]
      exact h.free j (by omega) hlt

structure Full (m : ℕ) (c : Cache) : Prop where
  stands : ∃ stored, Reflects c stored
  ready : c.Ready 0
  clock : c.lruClock < uintSize
  holds : ∀ i < slotCount, c.Holds i 0 i
  last : ∀ i < m, (c.slots i).lastUse = uintSize - 1

theorem Full.hit (h : Full m c) (hi : i < slotCount) (hm : m ≤ i) :
    ∃ c', guarded OnDrive CacheStep c (.get 0 i) c' ∧ c'.lruClock = (c.lruClock + 1) % uintSize ∧ Full m c' ∧
      (c'.slots i).lastUse = c'.lruClock := by
  obtain ⟨stored, hstands⟩ := h.stands
  have hheld := h.holds i hi
  have hget : bcacheGet 0 i c = some (some i, ({ c with hits := (c.hits + 1) % uintSize }.tick.setSlot i
      { c.slots i with lastUse := (c.lruClock + 1) % uintSize })) := by
    rw [bcacheGet, if_neg (by decide), hstands.findSlot_eq hheld]
    rfl
  refine ⟨_, ⟨h.ready, by rw [CacheStep, exec, hget]; rfl⟩, rfl, ?_, by rw [slots_setSlot_self]; rfl⟩
  refine ⟨⟨stored, ?_⟩, h.ready, mod_lt _ (by decide), fun j hj => ⟨hj, ?_⟩, fun j hj => ?_⟩
  · exact hstands.rewrite hheld ⟨rfl, hheld.2, fun _ _ _ => ⟨rfl, rfl⟩, hstands.held i 0 i hheld,
      hstands.clean i 0 i hheld, rfl⟩
  · by_cases hji : j = i
    · rw [hji, slots_setSlot_self]
      exact hheld.2
    · rw [slots_setSlot_of_ne hji]
      exact (h.holds j hj).2
  · rw [slots_setSlot_of_ne (by omega)]
    exact h.last j hj

theorem Full.wind (h : Full m c) (hm : m < slotCount) (n : ℕ) :
    ∃ calls c', Run (guarded OnDrive CacheStep) c calls c' ∧ c'.lruClock = (c.lruClock + n) % uintSize ∧ Full m c' := by
  induction n with
  | zero => exact ⟨[], c, .nil c, (mod_eq_of_lt h.clock).symm, h⟩
  | succ n ih =>
    obtain ⟨calls, c', hrun, hclock, hfull⟩ := ih
    obtain ⟨c'', hstep, hnext, hfull', -⟩ := hfull.hit (show slotCount - 1 < slotCount by decide) (by omega)
    refine ⟨calls ++ [.get 0 (slotCount - 1 : ℕ)], c'', hrun.append (.cons hstep (.nil c'')), ?_, hfull'⟩
    rw [hnext, hclock, mod_add_mod, add_assoc]

theorem Full.next (h : Full m c) (hm : m < slotCount) :
    ∃ calls c', Run (guarded OnDrive CacheStep) c calls c' ∧ Full (m + 1) c' := by
  obtain ⟨calls, c', hrun, hclock, hfull⟩ := h.wind hm (uintSize + (uintSize - 2) - c.lruClock)
  have hlast : (c'.lruClock + 1) % uintSize = uintSize - 1 := by
    have hlt := h.clock
    have hsum : c.lruClock + (uintSize + (uintSize - 2) - c.lruClock) = uintSize - 2 + uintSize := by omega
    rw [hclock, hsum, add_mod_right]
    decide
  obtain ⟨c'', hstep, hnext, hfull', huse⟩ := hfull.hit hm (le_refl m)
  refine ⟨calls ++ [.get 0 m], c'', hrun.append (.cons hstep (.nil c'')), ?_⟩
  refine ⟨hfull'.stands, hfull'.ready, hfull'.clock, hfull'.holds, fun j hj => ?_⟩
  rcases eq_or_lt_of_le (le_of_lt_succ hj) with rfl | hlt
  · rw [huse, hnext, hlast]
  · exact hfull'.last j hlt

/-- There is a run after which every slot was used at the last tick of the clock, and to get another sector then
fails. -/
theorem cache_stuck : ∃ calls c, Run (guarded OnDrive CacheStep) start calls c ∧ c.Ready 0 ∧ bcacheGet 0 slotCount c = none := by
  have hfill : ∀ k ≤ slotCount, ∃ calls c, Run (guarded OnDrive CacheStep) start calls c ∧ Filling k c := by
    intro k
    induction k with
    | zero =>
      refine fun _ => ⟨[], start, .nil start, ⟨_, reflects_empty fun _ _ => rfl⟩, ⟨by decide, by decide, rfl⟩, by decide,
        fun i hi => absurd hi (not_lt_zero i), fun _ _ _ => rfl⟩
    | succ k ih =>
      intro hk
      obtain ⟨calls, c, hrun, hfilling⟩ := ih (by omega)
      obtain ⟨c', hstep, hnext⟩ := hfilling.next (by omega)
      exact ⟨calls ++ [.get 0 k], c', hrun.append (.cons hstep (.nil c')), hnext⟩
  have huse : ∀ m ≤ slotCount, ∃ calls c, Run (guarded OnDrive CacheStep) start calls c ∧ Full m c := by
    intro m
    induction m with
    | zero =>
      intro _
      obtain ⟨calls, c, hrun, hfilling⟩ := hfill slotCount (le_refl _)
      exact ⟨calls, c, hrun, hfilling.stands, hfilling.ready, hfilling.clock, hfilling.holds,
        fun i hi => absurd hi (not_lt_zero i)⟩
    | succ m ih =>
      intro hm
      obtain ⟨calls, c, hrun, hfull⟩ := ih (by omega)
      obtain ⟨calls', c', hrun', hnext⟩ := hfull.next (by omega)
      exact ⟨calls ++ calls', c', hrun.append hrun', hnext⟩
  obtain ⟨calls, c, hrun, hfull⟩ := huse slotCount (le_refl _)
  obtain ⟨stored, hstands⟩ := hfull.stands
  refine ⟨calls, c, hrun, hfull.ready, ?_⟩
  rcases bcacheGet_spec hstands hfull.ready with ⟨hfail, -⟩ | ⟨hserves, -⟩
  · exact hfail
  · rcases hserves with ⟨i, hi, hmatch⟩ | ⟨i, hi, hfree | hused⟩
    · have hlba := (matches_unique (hfull.holds i hi).2 hmatch).2
      omega
    · rw [(matches_iff.mp (hfull.holds i hi).2).1] at hfree
      cases hfree
    · rw [hfull.last i hi] at hused
      omega

end Stuck

end AetherOs.BlockCache
