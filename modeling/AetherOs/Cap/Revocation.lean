import AetherOs.Cap.References

/-! # Revocation -/

namespace AetherOs.Cap

open Base Function Cap.System

def Disciplined (s : System) : Call → Prop
  | .release id => 1 ≤ s.held id
  | _ => True

def Countable (s : System) : Call → Prop
  | .addref id => ∀ i, capGet s.table id = some i → (s.table.slots i).refCount + 1 < uint32Size
  | .derive id _ => ∀ i, capGet s.table id = some i → (s.table.slots i).refCount + 1 < uint32Size
  | _ => True

structure Accounted (s : System) : Prop where
  recorded : Recorded s
  tidy : Tidy s.log s.table.slots
  rooted : Rooted (fun _ => False) s.table.slots
  balanced : Balanced s.held 0 s.table.slots
  unissued : ∀ x, s.log.length < x → s.held x = 0

structure RevokedExactly (s : System) (id : ℕ) (slots' : ℕ → Capability) : Prop where
  descendants : ∀ i, (slots' i).valid = true → (slots' i).id ≠ id ∧ ¬ Ancestor s.log id (slots' i).id
  shrinks : ∀ i, (slots' i).valid = true → (s.table.slots i).valid = true
  beside : ∀ i, (s.table.slots i).valid = true → (s.table.slots i).id ≠ id →
    ¬ Ancestor s.log id (s.table.slots i).id → ¬ Ancestor s.log (s.table.slots i).id id →
    slots' i = s.table.slots i
  ancestors : ∀ i, (s.table.slots i).valid = true → Ancestor s.log (s.table.slots i).id id →
    slots' i = s.table.slots i ∨
    slots' i = { s.table.slots i with refCount := (s.table.slots i).refCount - 1 } ∨
    (slots' i).valid = false ∧ (s.table.slots i).refCount = 1 ∧ s.held (s.table.slots i).id = 0 ∧
      ∃ k, children s.table.slots (s.table.slots i).id = {k} ∧ OnChain s.log (s.table.slots k).id id

variable {s s' : System} {log : List Record} {held : ℕ → ℕ} {t t' : CapTable} {c : Capability}
variable {id i j x : ℕ}

theorem Shrinks.validCount_le (h : Shrinks t t') : validCount t'.slots ≤ validCount t.slots := by
  refine Finset.card_le_card fun i hi => ?_
  rw [Finset.mem_filter] at hi ⊢
  exact ⟨hi.1, (h.slot i hi.2).1⟩

theorem revokeFrom_accounted (depth : ℕ) (htidy : Tidy log t.slots) (hroot : Rooted (fun _ => False) t.slots)
    (hbal : Balanced held 0 t.slots) (hlt : ∀ x p, DerivedFrom log x p → p < x)
    (hi : (t.slots i).valid) (hdepth : validCount t.slots ≤ depth + 1) :
    ∃ mid : CapTable, Tidy log mid.slots ∧
      Released log held (· = (t.slots i).id) (t.slots i).parent
        (update t.slots i (revoked (t.slots i))) mid.slots ∧
      Cut (OnChain log (t.slots i).id) mid.slots (revokeFrom (depth + 1) (t.slots i).id t).2.slots := by
  have hself := htidy.cut_self hi
  have hroot' : Rooted (· = (t.slots i).id) (update t.slots i (revoked (t.slots i))) :=
    hroot.invalidate rfl (fun _ hbad => hbad.elim) (.inl rfl)
  have hbal' := hbal.invalidate (c := revoked (t.slots i)) htidy hi (.inl rfl) rfl
  have hcount := validCount_update (c := revoked (t.slots i)) (htidy.bounded i hi) hi rfl
  have htidy' := hself.tidy htidy
  have hgone : ¬ Valid (update t.slots i (revoked (t.slots i))) (t.slots i).id :=
    fun hv => (hself.valid_iff.mp hv).2 rfl
  obtain ⟨t', hslots, hsweep⟩ := revokeFrom_succ depth htidy hi
  rw [hsweep]
  rw [← hslots] at hroot' hbal' hcount htidy' hgone ⊢
  obtain ⟨mid, hmid⟩ : ∃ mid, mid = if (t.slots i).parent ≠ 0 then capRelease (t.slots i).parent t' else t' :=
    ⟨_, rfl⟩
  have hshrink : Shrinks t' mid := by
    rw [hmid]
    split
    · exact shrinks_releaseFrom _ _ _
    · exact .refl _
  have hreleased : Released log held (· = (t.slots i).id) (t.slots i).parent t'.slots mid.slots := by
    rw [hmid]
    split_ifs with hzero
    · exact releaseFrom_released htidy' hroot' hbal' (Nat.lt_succ_of_le (validCount_le _))
    · rw [not_not.mp hzero] at hbal' ⊢
      exact ⟨hbal', hroot', fun _ => .inl rfl⟩
  have htidymid := htidy'.shrink hshrink.slot
  have hgonemid : ∀ x, x = (t.slots i).id → ¬ Valid mid.slots x := by
    rintro x rfl ⟨j, hj, hid⟩
    obtain ⟨hold, hsame⟩ := hreleased.trimmed.valid hj
    exact hgone ⟨j, hold, hsame.symm.trans hid⟩
  refine ⟨mid, htidymid, hreleased, ?_⟩
  rw [← hmid]
  refine cascade_cut _ htidymid hreleased.rooted hgonemid rfl (htidy.id_ne_zero hi)
    (fun x hx hne => absurd hx hne) hlt fun u j hu huroot hugone hj hparent hle => ?_
  have hlink := hu.derivedFrom hj (hparent ▸ htidy.id_ne_zero hi)
  rw [hparent] at hlink
  refine revokeFrom_cut hu huroot hugone hlt hj (hparent ▸ hugone _ rfl) ?_
    (by have := hshrink.validCount_le; omega)
  rintro x rfl hchain
  exact absurd (hchain.le hlt) (not_le.mpr (hlt _ _ hlink))

theorem capRevoke_true (h : (capRevoke id t).1) : ∃ i, capGet t id = some i := by
  cases hget : capGet t id with
  | none =>
    have hnone : (revokeFrom (4095 + 1) id t).1 := h
    simp [revokeFrom, hget] at hnone
  | some i => exact ⟨i, rfl⟩

theorem onChain_iff : OnChain log x id ↔ id = x ∨ Ancestor log x id :=
  Relation.reflTransGen_iff_eq_or_transGen.trans (or_congr_left eq_comm)

namespace Accounted

theorem init : Accounted System.init := by
  have hnone : ∀ i, (System.init.table.slots i).valid ≠ true := fun _ => Bool.false_ne_true
  exact ⟨.init, ⟨fun i hi => absurd hi (hnone i), fun i _ hi => absurd hi (hnone i),
    fun i hi => absurd hi (hnone i)⟩, fun i hi => absurd hi (hnone i),
    ⟨fun i hi => absurd hi (hnone i), fun i hi => absurd hi (hnone i)⟩, fun _ _ => rfl⟩

theorem capAddref_slots (htidy : Tidy log t.slots) (hi : (t.slots i).valid)
    (hroom : (t.slots i).refCount + 1 < uint32Size) : (capAddref (t.slots i).id t).slots =
    update t.slots i { t.slots i with refCount := (t.slots i).refCount + 1 } := by
  simp only [capAddref, htidy.capGet_eq hi, setSlot, Nat.mod_eq_of_lt hroom]

section

variable (h : Accounted s)
include h

theorem valid_onChain (hi : (s.table.slots i).valid)
    (hchain : OnChain s.log x (s.table.slots i).id) : Valid s.table.slots x := by
  induction hchain with
  | refl => exact ⟨i, hi, rfl⟩
  | tail _ hp ih =>
    obtain ⟨j, hj, rfl⟩ := ih
    have hparent := h.tidy.parent_eq hj hp
    exact hparent ▸ (h.rooted j hj (hparent ▸ hp.1)).resolve_right id

theorem sole_child (hi : (s.table.slots i).valid)
    (hj : (s.table.slots j).valid) (hone : (s.table.slots j).refCount = 1)
    (hanc : Ancestor s.log (s.table.slots j).id (s.table.slots i).id) :
    s.held (s.table.slots j).id = 0 ∧ ∃ k, children s.table.slots (s.table.slots j).id = {k} ∧
      OnChain s.log (s.table.slots k).id (s.table.slots i).id := by
  obtain ⟨y, hchain, hlink⟩ := Relation.TransGen.tail'_iff.mp hanc
  obtain ⟨k, hk, rfl⟩ := h.valid_onChain hi hchain
  have hmem : k ∈ children s.table.slots (s.table.slots j).id :=
    mem_children.mpr ⟨h.tidy.bounded k hk, hk, h.tidy.parent_eq hk hlink⟩
  have hcount := h.balanced.count j hj
  have hpos := Finset.card_pos.mpr ⟨k, hmem⟩
  rw [if_neg (h.tidy.id_ne_zero hj)] at hcount
  obtain ⟨k', hk'⟩ := Finset.card_eq_one.mp (show (children s.table.slots (s.table.slots j).id).card = 1 by omega)
  rw [hk', Finset.mem_singleton] at hmem
  subst hmem
  exact ⟨by omega, k, hk', hchain⟩

theorem revokedExactly (hget : capGet s.table id = some i) :
    RevokedExactly s id (capRevoke id s.table).2.slots := by
  obtain ⟨-, hi, rfl, -⟩ := capGet_some hget
  have hlt := h.recorded.parent_lt
  obtain ⟨mid, htidy, hrel, hcut⟩ := revokeFrom_accounted 4095 h.tidy h.rooted h.balanced hlt hi
    (validCount_le _)
  change Cut _ _ (capRevoke (s.table.slots i).id s.table).2.slots at hcut
  -- the slots of other capabilities, before the cascade
  have htrim : ∀ j, j ≠ i → mid.slots j = s.table.slots j ∨ (s.table.slots j).valid ∧
      OnChain s.log (s.table.slots j).id (s.table.slots i).id ∧
      (mid.slots j = { s.table.slots j with refCount := (s.table.slots j).refCount - 1 } ∨
        (mid.slots j).valid = false ∧ (s.table.slots j).refCount = 1) := fun j hj => by
    have := hrel.trimmed j
    rw [update_of_ne hj] at this
    refine this.imp_right fun ⟨hv, hchain, hslot⟩ => ⟨hv, ?_, hslot⟩
    exact h.tidy.onChain_of_parent hi (h.tidy.id_ne_zero hv) hchain
  have hid : ∀ j, (mid.slots j).valid → (s.table.slots j).valid ∧
      (mid.slots j).id = (s.table.slots j).id := fun j hv => by
    have hold := hrel.trimmed.valid hv
    rwa [update_of_ne (update_valid_ne rfl hold.1)] at hold
  refine ⟨fun j hj => ?_, fun j hj => ?_, fun j hj hne hbelow habove => ?_, fun j hj hanc => ?_⟩
  · obtain ⟨-, hnot, heq⟩ := hcut.valid hj
    rw [heq]
    exact ⟨fun hbad => hnot (onChain_iff.mpr (.inl hbad)), fun hbad => hnot (onChain_iff.mpr (.inr hbad))⟩
  · obtain ⟨hmid, -⟩ := hcut.valid hj
    exact (hid j hmid).1
  · have hji : j ≠ i := fun heq => hne (heq ▸ rfl)
    have heq : mid.slots j = s.table.slots j := (htrim j hji).resolve_right fun ⟨_, hchain, _⟩ =>
      (onChain_iff.mp hchain).elim (fun heq => hne heq.symm) habove
    rw [← heq]
    refine (hcut j).2 fun ⟨_, hchain⟩ => ?_
    rw [heq] at hchain
    exact (onChain_iff.mp hchain).elim hne hbelow
  · have hless : (s.table.slots j).id < (s.table.slots i).id := by
      obtain ⟨y, hlink, hrest⟩ := Relation.TransGen.head'_iff.mp hanc
      exact (OnChain.le hlt hrest).trans_lt (hlt _ _ hlink)
    have hji : j ≠ i := fun heq => by subst heq; omega
    have hstay : (capRevoke (s.table.slots i).id s.table).2.slots j = mid.slots j := by
      refine (hcut j).2 fun ⟨hv, hchain⟩ => ?_
      rw [(hid j hv).2] at hchain
      have := hchain.le hlt
      omega
    rw [hstay]
    rcases htrim j hji with heq | ⟨-, -, heq | ⟨hfreed, hone⟩⟩
    · exact .inl heq
    · exact .inr (.inl heq)
    · exact .inr (.inr ⟨hfreed, hone, h.sole_child hi hj hone hanc⟩)

theorem shrink (hshrink : Shrinks s.table t)
    (hroot : Rooted (fun _ => False) t.slots) (hbal : Balanced held 0 t.slots)
    (hheld : ∀ x, s.log.length < x → held x = 0) : Accounted ⟨t, s.log, held⟩ :=
  ⟨h.recorded.shrink hshrink held, h.tidy.shrink hshrink.slot, hroot, hbal, hheld⟩

theorem insert {f : ℕ → Capability} (htidy : Tidy s.log f)
    (hroot : Rooted (fun _ => False) f) (hbal : Balanced s.held c.parent f)
    (hparent : c.parent ≠ 0 → Valid f c.parent) (hlt : i < capTableSize)
    (hfree : (f i).valid = false) (hc : c.valid) (hone : c.refCount = 1)
    (hid : c.id = s.log.length + 1) (hslots : t.slots = update f i c)
    (hrec : Recorded ⟨t, s.log ++ [recordOf c], update s.held c.id (s.held c.id + 1)⟩) :
    Accounted ⟨t, s.log ++ [recordOf c], update s.held c.id (s.held c.id + 1)⟩ := by
  have hold : ∀ j, (f j).valid → (f j).id < c.id := fun j hj => by
    have := (record_lt (htidy.logged j hj)).2
    omega
  have hvalid : ∀ x, Valid f x → Valid t.slots x := by
    rintro x ⟨j, hj, hjx⟩
    have hne : j ≠ i := fun heq => by rw [heq, hfree] at hj; cases hj
    exact ⟨j, by rwa [hslots, update_of_ne hne], by rwa [hslots, update_of_ne hne]⟩
  have hbelow : ∀ x, Valid f x → x ≠ c.id := by
    rintro x ⟨j, hj, rfl⟩
    exact (hold j hj).ne
  refine ⟨hrec, ⟨fun j hj => ?_, fun j k hj hk hjk => ?_, hrec.logged⟩, fun j hj hne => ?_, ?_, fun x hx => ?_⟩
  · change (t.slots j).valid = true at hj
    by_cases hji : j = i
    · rwa [hji]
    · rw [hslots, update_of_ne hji] at hj
      exact htidy.bounded j hj
  · change (t.slots j).valid = true at hj
    change (t.slots k).valid = true at hk
    change (t.slots j).id = (t.slots k).id at hjk
    rw [hslots] at hj hk hjk
    by_cases hji : j = i <;> by_cases hki : k = i
    · rw [hji, hki]
    · rw [update_of_ne hki] at hk hjk
      rw [hji, update_self] at hjk
      exact absurd hjk (hold k hk).ne'
    · rw [update_of_ne hji] at hj hjk
      rw [hki, update_self] at hjk
      exact absurd hjk (hold j hj).ne
    · rw [update_of_ne hji] at hj hjk
      rw [update_of_ne hki] at hk hjk
      exact htidy.distinct j k hj hk hjk
  · change (t.slots j).valid = true at hj
    change (t.slots j).parent ≠ 0 at hne
    change Valid t.slots (t.slots j).parent ∨ False
    rw [hslots] at hj hne
    refine .inl (hvalid _ ?_)
    rw [hslots]
    by_cases hji : j = i
    · rw [hji, update_self] at hne ⊢
      exact hparent hne
    · rw [update_of_ne hji] at hj hne ⊢
      exact (hroot j hj hne).resolve_right (fun hbad => hbad)
  · change Balanced _ 0 t.slots
    rw [hslots]
    refine hbal.insert htidy hlt hfree hc hone (by omega) (fun heq => ?_)
      (h.unissued _ (by omega)) fun j hj => ⟨(hold j hj).ne, fun heq => ?_⟩
    · exact hbelow _ (hparent (by omega)) heq
    · exact hbelow _ ((hroot j hj (by omega)).resolve_right (fun hbad => hbad)) heq
  · have hlast : s.log.length + 1 < x := by simpa using hx
    change update s.held c.id _ x = 0
    rw [update_of_ne (by omega)]
    exact h.unissued x (by omega)

theorem create {type rights : BitVec 32} {object : ℕ} {tid : BitVec 32}
    (hstep : Step s (.create type rights object tid) s') : Accounted s' := by
  have hrec := h.recorded.step hstep
  obtain ⟨rfl, -⟩ := hstep
  rw [exec] at hrec ⊢
  rcases capCreate_cases type rights object tid s.table with hfail | ⟨i, halloc, hcreate⟩
  · rw [hfail]
    exact h.shrink (.refl _) h.rooted h.balanced h.unissued
  · obtain ⟨hlt, hfree⟩ := allocSlot_some halloc
    rw [hcreate, issue, if_neg (by rw [h.recorded.nextId]; omega)] at hrec ⊢
    refine h.insert (c := ⟨s.table.nextId, type, rights, object, 0, 1, tid, true⟩) h.tidy h.rooted h.balanced
      (fun hbad => absurd rfl hbad) hlt hfree rfl rfl h.recorded.nextId ?_ hrec
    rw [slots_countUp]
    rfl

theorem derive {parentId : ℕ} {rights : BitVec 32}
    (hroom : Countable s (.derive parentId rights)) (hstep : Step s (.derive parentId rights) s') :
    Accounted s' := by
  have hrec := h.recorded.step hstep
  obtain ⟨rfl, -⟩ := hstep
  simp only [exec] at hrec ⊢
  rcases capDerive_cases parentId rights s.table with hfail | ⟨i, j, halloc, hget, -, -, hderive⟩
  · rw [hfail]
    exact h.shrink (.refl _) h.rooted h.balanced h.unissued
  · obtain ⟨hlt, hfree⟩ := allocSlot_some halloc
    obtain ⟨-, hj, rfl, hne⟩ := capGet_some hget
    have hentry : inherited s.table (s.table.slots j).id rights =
        recordOf (derivedCap s.table j (s.table.slots j).id rights) := by
      rw [inherited, hget]
      rfl
    have hji : j ≠ i := fun heq => by rw [heq, hfree] at hj; cases hj
    rw [hderive, hentry, issue, if_neg (by rw [h.recorded.nextId]; omega)] at hrec ⊢
    generalize hc : derivedCap s.table j (s.table.slots j).id rights = c at hrec ⊢
    have hcid : c.id = s.table.nextId := hc ▸ rfl
    have hcparent : c.parent = (s.table.slots j).id := hc ▸ rfl
    rw [← hcid] at hrec ⊢
    have hadd := h.balanced.add h.tidy hj
    refine h.insert (c := c) (i := i) (f := update s.table.slots j
        { s.table.slots j with refCount := (s.table.slots j).refCount + 1 })
      (h.tidy.shrink fun k hk => ?_) (h.rooted.recount _) (hcparent ▸ hadd)
      (fun _ => ⟨j, ?_, ?_⟩) hlt ?_ (hc ▸ rfl) (hc ▸ rfl) (hcid.trans h.recorded.nextId) ?_ hrec
    · rw [update_refCount] at hk ⊢
      exact ⟨hk, rfl, rfl, rfl, rfl, rfl⟩
    · rw [update_self]
      exact hj
    · rw [update_self, hcparent]
    · rw [update_of_ne hji.symm]
      exact hfree
    · -- the parent is found again in the table with the new capability
      have hfound : capGet (setSlot i c (issueId s.table)) (s.table.slots j).id = some j := by
        have hslot : (setSlot i c (issueId s.table)).slots j = s.table.slots j := by
          rw [slots_setSlot, if_neg hji, slots_issueId]
        have hall : ∀ k, ((setSlot i c (issueId s.table)).slots k).valid →
            ((setSlot i c (issueId s.table)).slots k).id = (s.table.slots j).id → k = j := fun k hk hid => by
          rw [slots_setSlot] at hk hid
          split_ifs at hid with hki
          · have := h.recorded.id_le hj
            rw [hcid, h.recorded.nextId] at hid
            omega
          · rw [if_neg hki, slots_issueId] at hk
            rw [slots_issueId] at hid
            exact h.tidy.distinct k j hk hj hid
        rw [← hslot] at hj hne hall ⊢
        exact capGet_unique (h.tidy.bounded j (hslot ▸ hj)) hj hne hall
      have hroom' := hroom j hget
      rw [slots_countUp]
      simp only [capAddref, hfound]
      simp only [setSlot, slots_issueId, update_of_ne hji, Nat.mod_eq_of_lt hroom']
      exact update_comm hji.symm _ _ _

theorem step {call : Call} (hdisc : Disciplined s call) (hroom : Countable s call)
    (hstep : Step s call s') : Accounted s' := by
  cases call with
  | create type rights object tid => exact h.create hstep
  | derive parentId rights => exact h.derive hroom hstep
  | addref id =>
    obtain ⟨rfl, -⟩ := hstep
    have hshrink := shrinks_capAddref id s.table
    simp only [exec]
    cases hget : capGet s.table id with
    | none =>
      have hsame : capAddref id s.table = s.table := by simp only [capAddref, hget]
      rw [hsame]
      exact h.shrink (.refl _) h.rooted h.balanced h.unissued
    | some i =>
      obtain ⟨-, hi, rfl, -⟩ := capGet_some hget
      have hslots := capAddref_slots h.tidy hi (hroom i hget)
      refine h.shrink hshrink (hslots ▸ h.rooted.recount _) ?_ fun x hx => ?_
      · rw [if_pos Option.isSome_some]
        have hbal := h.balanced.add h.tidy hi
        rw [← hslots] at hbal
        exact hbal.take (h.tidy.shrink hshrink.slot)
      · have := h.recorded.id_le hi
        rw [if_pos Option.isSome_some, update_of_ne (by omega)]
        exact h.unissued x hx
  | release id =>
    obtain ⟨rfl, -⟩ := hstep
    have hrel := releaseFrom_released h.tidy h.rooted (h.balanced.give h.tidy hdisc)
      (Nat.lt_succ_of_le (validCount_le _))
    refine h.shrink (shrinks_releaseFrom _ _ _) hrel.rooted hrel.balanced fun x hx => ?_
    have hzero := h.unissued x hx
    rw [update_apply]
    split_ifs with heq
    · rw [← heq, hzero]
    · exact hzero
  | transfer id tid =>
    obtain ⟨rfl, -⟩ := hstep
    have hsame : ∀ k, ((capTransfer id tid s.table).2.slots k) =
        { s.table.slots k with ownerTid := ((capTransfer id tid s.table).2.slots k).ownerTid } := fun k => by
      rw [capTransfer]
      split
      · rfl
      · split
        · rfl
        · rw [slots_setSlot]
          split_ifs with heq
          · rw [heq]
          · rfl
    refine h.shrink (shrinks_capTransfer _ _ _) (h.rooted.congr fun k => ?_) (h.balanced.congr fun k => ?_)
      h.unissued
    all_goals rw [hsame]
    · exact ⟨rfl, rfl, rfl⟩
    · exact ⟨rfl, rfl, rfl, rfl⟩
  | revoke id =>
    obtain ⟨rfl, -⟩ := hstep
    have hshrink := shrinks_revokeFrom capTableSize id s.table
    cases hget : capGet s.table id with
    | none =>
      have hsame : (capRevoke id s.table).2 = s.table := by
        change (revokeFrom (4095 + 1) id s.table).2 = _
        simp only [revokeFrom, hget]
      simp only [exec, hsame]
      exact h
    | some i =>
      obtain ⟨-, hi, rfl, -⟩ := capGet_some hget
      obtain ⟨mid, htidy, hrel, hcut⟩ := revokeFrom_accounted 4095 h.tidy h.rooted h.balanced
        h.recorded.parent_lt hi (validCount_le _)
      have hne := h.tidy.id_ne_zero hi
      have hgone : ∀ j, (mid.slots j).valid → (mid.slots j).id ≠ (s.table.slots i).id := by
        intro j hj heq
        obtain ⟨hold, hsame⟩ := hrel.trimmed.valid hj
        exact ((h.tidy.cut_self hi).valid_iff.mp ⟨j, hold, hsame.symm.trans heq⟩).2 rfl
      refine h.shrink hshrink ?_ (hcut.balanced hrel.balanced fun j k hj hk hchain hparent => ?_) h.unissued
      · intro j hj hzero
        -- a parent that was taken away is the revoked capability, and what was below it is gone
        obtain ⟨hmid, hnot, heq⟩ := hcut.valid hj
        have hroot := hcut.rooted hrel.rooted (fun k hk => htidy.onChain_of_parent hk hne) j hj hzero
        refine hroot.imp_right fun hbad => hnot ?_
        have hparent : (mid.slots j).parent = (s.table.slots i).id := heq ▸ hbad
        exact htidy.onChain_of_parent hmid hne (hparent ▸ .refl)
      · exact hparent ▸ (htidy.onChain_parent hj hchain (hgone j hj)).2

end

end Accounted

/-- In every run of disciplined clients in which no count is at its largest value when a reference is
added, a revocation takes exactly the capability and those derived from it. -/
theorem revocation_exact {calls : List Call}
    (hrun : Run (guarded (fun s c => Disciplined s c ∧ Countable s c) Step) init calls s)
    (hrevoke : (capRevoke id s.table).1 = true) : RevokedExactly s id (capRevoke id s.table).2.slots := by
  have h : Accounted s := hrun.invariant
    (fun _ _ _ h hstep => h.step hstep.1.1 hstep.1.2 hstep.2) Accounted.init
  obtain ⟨i, hget⟩ := capRevoke_true hrevoke
  exact h.revokedExactly hget

/-- The root of the pair is revoked with the capability derived from it. -/
theorem revocation_exact_derivedPair : RevokedExactly derivedPair 1 (capRevoke 1 derivedPair.table).2.slots := by
  have hrun : Run (guarded (fun s c => Disciplined s c ∧ Countable s c) Step) init
      [.create 2 0x7F 100 1, .derive 1 0x41] derivedPair :=
    .cons ⟨⟨trivial, trivial⟩, rfl, ?_⟩ (.cons ⟨⟨trivial, fun i hget => ?_⟩, rfl, ?_⟩ (.nil _))
  · exact revocation_exact hrun (by decide +kernel)
  · decide +kernel
  · have hzero : capGet (init.exec (.create 2 0x7F 100 1)).table 1 = some 0 := by decide +kernel
    obtain rfl := Option.some.inj (hzero.symm.trans hget)
    decide +kernel
  · decide +kernel

def threeSlots (count : ℕ) : ℕ → Capability
  | 0 => ⟨1, 2, 0x7F, 100, 0, 2, 1, true⟩
  | 1 => ⟨2, 2, 0x7F, 100, 1, count, 1, true⟩
  | 2 => ⟨3, 2, 0x7F, 100, 2, 1, 1, true⟩
  | _ => ⟨0, 0, 0, 0, 0, 0, 0, false⟩

def threeCaps (added : ℕ) : System where
  table := ⟨threeSlots ((2 + added) % uint32Size), 4, 3⟩
  log := [⟨2, 0x7F, 100, 0⟩, ⟨2, 0x7F, 100, 1⟩, ⟨2, 0x7F, 100, 2⟩]
  held := fun x => if x = 2 then 1 + added else if x = 1 ∨ x = 3 then 1 else 0

def threeCalls : List Call := [.create 2 0x7F 100 1, .derive 1 0x7F, .derive 2 0x7F]

theorem exec_threeCalls : threeCalls.foldl exec init = threeCaps 0 := by
  set s := threeCalls.foldl exec init
  have hslots : s.table.slots = threeSlots 2 := by
    funext i
    match i with
    | 0 | 1 | 2 => decide +kernel
    | n + 3 => rfl
  have hheld : s.held = (threeCaps 0).held := by
    funext i
    match i with
    | 0 | 1 | 2 | 3 => decide +kernel
    | n + 4 => rfl
  have hlog : s.log = (threeCaps 0).log := by decide +kernel
  have hnext : s.table.nextId = 4 := by decide +kernel
  have hcount : s.table.activeCount = 3 := by decide +kernel
  clear_value s
  obtain ⟨⟨slots, next, count⟩, log, held⟩ := s
  simp only at hslots hheld hlog hnext hcount
  subst hslots hheld hlog hnext hcount
  rfl

theorem exec_addref (n : ℕ) : (threeCaps n).exec (.addref 2) = threeCaps (n + 1) := by
  have hget : capGet (threeCaps n).table 2 = some 1 := rfl
  simp only [exec, capAddref, hget, Option.isSome_some, if_true]
  rw [threeCaps, mk.injEq]
  refine ⟨?_, rfl, funext fun x => ?_⟩
  · simp only [setSlot, threeCaps, CapTable.mk.injEq, and_true]
    funext i
    rcases i with _ | _ | _ | i
    · rfl
    · simp [threeSlots, uint32Size]
      omega
    · rfl
    · rfl
  · simp only [threeCaps, update_apply]
    split
    · simp
      omega
    · rfl

theorem run_addref (n k : ℕ) :
    Run (guarded Disciplined Step) (threeCaps n) (List.replicate k (.addref 2)) (threeCaps (n + k)) := by
  induction k generalizing n with
  | zero => exact .nil _
  | succ k ih =>
    refine .cons ⟨trivial, (exec_addref n).symm, by simp [threeCaps, uint32Size]⟩ ?_
    rw [Nat.add_comm k 1, ← Nat.add_assoc]
    exact ih (n + 1)

def orphaned : System where
  table := ⟨update (update (threeSlots 1) 1 ⟨2, 2, 0x7F, 0, 1, 0, 1, false⟩) 0
    ⟨1, 2, 0x7F, 100, 0, 1, 1, true⟩, 4, 2⟩
  log := (threeCaps 0).log
  held := fun x => if x = 2 then uint32Size - 1 else if x = 1 ∨ x = 3 then 1 else 0

theorem exec_release : (threeCaps (uint32Size - 1)).exec (.release 2) = orphaned := by
  have hcount : (2 + (uint32Size - 1)) % uint32Size = 1 := by decide
  have htable : capRelease 2 (threeCaps (uint32Size - 1)).table = orphaned.table := by
    simp only [threeCaps, hcount]
    rfl
  rw [exec, htable, orphaned, mk.injEq]
  refine ⟨rfl, rfl, funext fun x => ?_⟩
  simp only [threeCaps, update_apply]
  split <;> simp [*, uint32Size]

theorem revokeFrom_leaf (depth : ℕ) (hget : capGet t id = some i) (hroot : (t.slots i).parent = 0)
    (hleaf : ∀ j, ¬ ((t.slots j).valid ∧ (t.slots j).parent = id)) :
    (revokeFrom (depth + 1) id t).2.slots = update t.slots i (revoked (t.slots i)) := by
  have hstay : ∀ (t' : CapTable), (∀ j, ¬ ((t'.slots j).valid ∧ (t'.slots j).parent = id)) →
      sweep depth id t' = t' := by
    intro t' hleaf'
    refine foldl_range_invariant (fun _ u => u = t') rfl fun k _ u hu => ?_
    rw [hu]
    refine if_neg ?_
    rw [Bool.and_eq_true, decide_eq_true_eq]
    exact hleaf' k
  simp only [revokeFrom, hget]
  rw [if_neg (not_not.mpr hroot), ← sweep, hstay, slots_countDown.1]
  · rfl
  · intro j
    rw [slots_countDown.1, slots_setSlot]
    split
    · exact fun hbad => Bool.false_ne_true hbad.1
    · exact hleaf j

theorem capRevoke_leaf (hget : capGet t id = some i) (hroot : (t.slots i).parent = 0)
    (hleaf : ∀ j, ¬ ((t.slots j).valid ∧ (t.slots j).parent = id)) :
    (capRevoke id t).2.slots = update t.slots i (revoked (t.slots i)) :=
  revokeFrom_leaf 4095 hget hroot hleaf

/-- After `2 ^ 32 - 1` references too many, a revocation leaves a capability valid that was derived
from a capability derived from the revoked one. -/
theorem revocation_misses_orphan : ∃ calls s, Run (guarded Disciplined Step) init calls s ∧
    (capRevoke 1 s.table).1 = true ∧ ((capRevoke 1 s.table).2.slots 2).valid = true ∧
    Ancestor s.log 1 ((capRevoke 1 s.table).2.slots 2).id := by
  have hcalls : Run (guarded Disciplined Step) init threeCalls (threeCaps 0) := by
    rw [← exec_threeCalls]
    exact .cons ⟨trivial, rfl, by decide +kernel⟩ (.cons ⟨trivial, rfl, by decide +kernel⟩
      (.cons ⟨trivial, rfl, by decide +kernel⟩ (.nil _)))
  have hadd := run_addref 0 (uint32Size - 1)
  rw [Nat.zero_add] at hadd
  have hheld : (threeCaps (uint32Size - 1)).held 2 = uint32Size := by decide
  have hrelease : Run (guarded Disciplined Step) (threeCaps (uint32Size - 1)) [.release 2] orphaned :=
    .cons ⟨by rw [Disciplined, hheld]; decide, exec_release.symm, by decide⟩ (.nil _)
  have hslot : (capRevoke 1 orphaned.table).2.slots 2 = ⟨3, 2, 0x7F, 100, 2, 1, 1, true⟩ := by
    have hleaf : (capRevoke 1 orphaned.table).2.slots = update orphaned.table.slots 0
        (revoked (orphaned.table.slots 0)) := capRevoke_leaf rfl rfl fun j => ?_
    · rw [hleaf]
      rfl
    · match j with
      | 0 | 1 | 2 | n + 3 => exact fun hbad => by simp [orphaned, threeSlots] at hbad
  refine ⟨_, orphaned, (hcalls.append hadd).append hrelease, by decide +kernel, by rw [hslot], ?_⟩
  rw [hslot]
  exact .tail (.single ⟨by decide, ⟨2, 0x7F, 100, 2⟩, rfl, rfl⟩) ⟨by decide, ⟨2, 0x7F, 100, 1⟩, rfl, rfl⟩

end AetherOs.Cap
