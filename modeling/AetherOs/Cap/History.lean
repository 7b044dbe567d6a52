import AetherOs.Base.Loop
import AetherOs.Cap.Model
import AetherOs.Base.Run

/-! # The history of capabilities -/

namespace AetherOs.Cap

open Base Function Option

/-! ## Lookups and slots -/

section

variable {t t' t'' : CapTable} {id i j : ℕ} {c : Capability}

structure SameIdentity (c c' : Capability) : Prop where
  id : c'.id = c.id
  type : c'.type = c.type
  rights : c'.rights = c.rights
  object : c'.object = c.object
  parent : c'.parent = c.parent

structure Shrinks (t t' : CapTable) : Prop where
  slot : ∀ i, (t'.slots i).valid = true → (t.slots i).valid = true ∧ SameIdentity (t.slots i) (t'.slots i)
  nextId : t'.nextId = t.nextId

theorem SameIdentity.refl (c : Capability) : SameIdentity c c := ⟨rfl, rfl, rfl, rfl, rfl⟩

theorem SameIdentity.trans {c c' c'' : Capability} (h : SameIdentity c c') (h' : SameIdentity c' c'') :
    SameIdentity c c'' :=
  ⟨h'.id.trans h.id, h'.type.trans h.type, h'.rights.trans h.rights, h'.object.trans h.object,
    h'.parent.trans h.parent⟩

theorem findSlot_eq_search {p : Capability → Bool} {slots : ℕ → Capability} (steps a : ℕ) :
    findSlot p slots steps a = search p slots steps a := by
  induction steps generalizing a with
  | zero => rfl
  | succ steps ih => rw [findSlot, search, ih]

theorem capGet_some (h : capGet t id = some i) :
    i < capTableSize ∧ (t.slots i).valid ∧ (t.slots i).id = id ∧ id ≠ 0 := by
  rw [capGet] at h
  split at h
  · cases h
  · rename_i hne
    rw [findSlot_eq_search] at h
    obtain ⟨-, hlt, hslot, -⟩ := search_some h
    simp only [Bool.and_eq_true, decide_eq_true_eq] at hslot
    exact ⟨by omega, hslot.1, hslot.2, hne⟩

theorem capGet_none (h : capGet t id = none) (hne : id ≠ 0) (hi : i < capTableSize)
    (hvalid : (t.slots i).valid) : (t.slots i).id ≠ id := by
  rw [capGet, if_neg hne, findSlot_eq_search] at h
  have hslot := search_none h (Nat.zero_le i) (by omega)
  simpa only [hvalid, Bool.true_and, decide_eq_false_iff_not] using hslot

theorem allocSlot_some (h : allocSlot t = some i) : i < capTableSize ∧ (t.slots i).valid = false := by
  rw [allocSlot, findSlot_eq_search] at h
  obtain ⟨-, hlt, hslot, -⟩ := search_some h
  exact ⟨by omega, by simpa using hslot⟩

theorem slots_setSlot : (setSlot i c t).slots j = if j = i then c else t.slots j := by
  simp [setSlot, update_apply]

@[simp] theorem slots_countUp : (countUp t).slots = t.slots := by
  cases t
  rfl

@[simp] theorem nextId_countUp : (countUp t).nextId = t.nextId := by
  cases t
  rfl

@[simp] theorem slots_countDown : (countDown t).slots = t.slots ∧ (countDown t).nextId = t.nextId := by
  cases t
  exact ⟨rfl, rfl⟩

@[simp] theorem slots_issueId : (issueId t).slots = t.slots := by
  cases t
  rfl

namespace Shrinks

theorem refl (t : CapTable) : Shrinks t t := ⟨fun _ h => ⟨h, .refl _⟩, rfl⟩

theorem trans (h : Shrinks t t') (h' : Shrinks t' t'') : Shrinks t t'' := by
  refine ⟨fun i hvalid => ?_, h'.nextId.trans h.nextId⟩
  obtain ⟨hmid, hsame'⟩ := h'.slot i hvalid
  obtain ⟨hold, hsame⟩ := h.slot i hmid
  exact ⟨hold, hsame.trans hsame'⟩

theorem countDown (h : Shrinks t t') : Shrinks t (countDown t') := by
  refine ⟨fun i => ?_, slots_countDown.2.trans h.nextId⟩
  rw [slots_countDown.1]
  exact h.slot i

theorem setSlot (hvalid : (t.slots i).valid)
    (hsame : c.valid → SameIdentity (t.slots i) c) : Shrinks t (setSlot i c t) := by
  refine ⟨fun j hj => ?_, rfl⟩
  rw [slots_setSlot] at hj ⊢
  by_cases heq : j = i
  · subst heq
    rw [if_pos rfl] at hj ⊢
    exact ⟨hvalid, hsame hj⟩
  · rw [if_neg heq] at hj ⊢
    exact ⟨hj, .refl _⟩

theorem invalidate (hvalid : (t.slots i).valid) (hc : c.valid = false) :
    Shrinks t (Cap.setSlot i c t) :=
  .setSlot hvalid fun hbad => absurd (hc.symm.trans hbad) Bool.false_ne_true

end Shrinks

theorem shrinks_capAddref (id : ℕ) (t : CapTable) : Shrinks t (capAddref id t) := by
  rw [capAddref]
  split
  · exact .refl t
  · rename_i hget
    exact .setSlot (capGet_some hget).2.1 fun _ => ⟨rfl, rfl, rfl, rfl, rfl⟩

theorem shrinks_releaseFrom (depth id : ℕ) (t : CapTable) : Shrinks t (releaseFrom depth id t) := by
  induction depth generalizing id t with
  | zero => exact .refl t
  | succ depth ih =>
    simp only [releaseFrom]
    split
    · exact .refl t
    · rename_i i hget
      have hvalid := (capGet_some hget).2.1
      have hkill : Shrinks t (setSlot i { t.slots i with refCount := 0, valid := false, object := 0 } t) :=
        .invalidate hvalid rfl
      split
      · exact .setSlot hvalid fun _ => ⟨rfl, rfl, rfl, rfl, rfl⟩
      · refine Shrinks.countDown ?_
        split
        · exact hkill.trans (ih _ _)
        · exact hkill

theorem shrinks_revokeFrom (depth id : ℕ) (t : CapTable) : Shrinks t (revokeFrom depth id t).2 := by
  induction depth generalizing id t with
  | zero => exact .refl t
  | succ depth ih =>
    simp only [revokeFrom]
    split
    · exact .refl t
    · rename_i i hget
      have hkill : Shrinks t (countDown (setSlot i { t.slots i with valid := false, object := 0 } t)) :=
        (Shrinks.invalidate (capGet_some hget).2.1 rfl).countDown
      dsimp only
      refine foldl_range_invariant (fun _ t' => Shrinks t t') ?_ fun j _ t' ht' => ?_
      · split
        · exact hkill.trans (shrinks_releaseFrom _ _ _)
        · exact hkill
      · split
        · exact ht'.trans (ih _ _)
        · exact ht'

theorem shrinks_capTransfer (id : ℕ) (tid : BitVec 32) (t : CapTable) :
    Shrinks t (capTransfer id tid t).2 := by
  rw [capTransfer]
  split
  · exact .refl t
  · rename_i hget
    split
    · exact .refl t
    · exact .setSlot (capGet_some hget).2.1 fun _ => ⟨rfl, rfl, rfl, rfl, rfl⟩

end

/-! ## The history of capabilities -/

section

structure Record where
  type : BitVec 32
  rights : BitVec 32
  object : ℕ
  parent : ℕ
  deriving DecidableEq

def record (log : List Record) (id : ℕ) : Option Record := if id = 0 then none else log[id - 1]?

def recordOf (c : Capability) : Record := ⟨c.type, c.rights, c.object, c.parent⟩

structure System where
  table : CapTable
  log : List Record
  held : ℕ → ℕ

inductive Call
  | create (type rights : BitVec 32) (object : ℕ) (ownerTid : BitVec 32)
  | derive (parentId : ℕ) (reducedRights : BitVec 32)
  | addref (id : ℕ)
  | release (id : ℕ)
  | transfer (id : ℕ) (newOwnerTid : BitVec 32)
  | revoke (id : ℕ)

def System.init : System := ⟨capTableInit, [], fun _ => 0⟩

def System.issue (s : System) (r : ℕ × CapTable) (entry : Record) : System :=
  if r.1 = 0 then { s with table := r.2 }
  else ⟨r.2, s.log ++ [entry], update s.held r.1 (s.held r.1 + 1)⟩

def inherited (t : CapTable) (parentId : ℕ) (rights : BitVec 32) : Record :=
  match capGet t parentId with
  | none => ⟨0, rights, 0, parentId⟩
  | some j => ⟨(t.slots j).type, rights, (t.slots j).object, parentId⟩

def System.exec (s : System) : Call → System
  | .create type rights object ownerTid =>
    s.issue (capCreate type rights object ownerTid s.table) ⟨type, rights, object, 0⟩
  | .derive parentId reducedRights =>
    s.issue (capDerive parentId reducedRights s.table) (inherited s.table parentId reducedRights)
  | .addref id =>
    { s with
      table := capAddref id s.table
      held := if (capGet s.table id).isSome then update s.held id (s.held id + 1) else s.held }
  | .release id =>
    { s with table := capRelease id s.table, held := update s.held id (s.held id - 1) }
  | .transfer id newOwnerTid => { s with table := (capTransfer id newOwnerTid s.table).2 }
  | .revoke id => { s with table := (capRevoke id s.table).2 }

def Step (s : System) (c : Call) (s' : System) : Prop := s' = s.exec c ∧ s'.log.length < uint32Size - 1

def DerivedFrom (log : List Record) (x p : ℕ) : Prop := p ≠ 0 ∧ ∃ e, record log x = some e ∧ e.parent = p

def Ancestor (log : List Record) (a x : ℕ) : Prop := Relation.TransGen (DerivedFrom log) x a

def RightsLe (r q : BitVec 32) : Prop := r &&& ~~~q = 0

structure Recorded (s : System) : Prop where
  nextId : s.table.nextId = s.log.length + 1
  logged : ∀ i, (s.table.slots i).valid = true →
    record s.log (s.table.slots i).id = some (recordOf (s.table.slots i))
  parent_lt : ∀ x p, DerivedFrom s.log x p → p < x
  derived : ∀ x e, record s.log x = some e → e.parent ≠ 0 → ∃ f, record s.log e.parent = some f ∧
    RightsLe e.rights f.rights ∧ f.rights &&& capRightManage ≠ 0 ∧ e.type = f.type ∧ e.object = f.object

variable {s s' : System} {log : List Record} {e f : Record} {r q u : BitVec 32} {id i x : ℕ}

theorem SameIdentity.recordOf_eq {c c' : Capability} (h : SameIdentity c c') : recordOf c' = recordOf c := by
  rw [recordOf, h.type, h.rights, h.object, h.parent, recordOf]

theorem rightsLe_iff : RightsLe r q ↔ ∀ i, r.getLsbD i → q.getLsbD i := by
  refine ⟨fun h i hi => ?_, fun h => BitVec.eq_of_getLsbD_eq fun i hlt => ?_⟩
  · have hlt : i < 32 := BitVec.lt_of_getLsbD hi
    have hbit := congrArg (·.getLsbD i) h
    simpa [hi, hlt] using hbit
  · cases hi : r.getLsbD i with
    | false => simp [hi]
    | true => simp [hi, h i hi]

theorem RightsLe.trans (h : RightsLe r q) (h' : RightsLe q u) : RightsLe r u := by
  rw [rightsLe_iff] at *
  exact fun i hi => h' i (h i hi)

theorem RightsLe.and_eq (h : RightsLe r q) (hu : r &&& u = u) : q &&& u = u := by
  rw [rightsLe_iff] at h
  refine BitVec.eq_of_getLsbD_eq fun i _ => ?_
  have hbit := congrArg (·.getLsbD i) hu
  simp only [BitVec.getLsbD_and] at hbit ⊢
  cases hi : u.getLsbD i with
  | false => simp
  | true =>
    rw [hi, Bool.and_true] at hbit
    rw [h i hbit, Bool.and_true]

theorem record_append (h : record log id = some e) : record (log ++ [f]) id = some e := by
  rw [record] at h ⊢
  split at h
  · cases h
  · rename_i hne
    rw [if_neg hne, List.getElem?_append_left (List.getElem?_eq_some_iff.mp h).1, h]

theorem record_append_self : record (log ++ [f]) (log.length + 1) = some f := by
  simp [record]

theorem record_of_append (h : record (log ++ [f]) id = some e) (hne : id ≠ log.length + 1) :
    record log id = some e := by
  rw [record] at h ⊢
  split at h
  · cases h
  · rename_i hzero
    rw [if_neg hzero]
    have hlt := (List.getElem?_eq_some_iff.mp h).1
    rw [List.length_append, List.length_singleton] at hlt
    rwa [List.getElem?_append_left (by omega)] at h

theorem record_lt (h : record log id = some e) : id ≠ 0 ∧ id ≤ log.length := by
  rw [record] at h
  split at h
  · cases h
  · rename_i hne
    have := (List.getElem?_eq_some_iff.mp h).1
    exact ⟨hne, by omega⟩

theorem capCreate_cases (type rights : BitVec 32) (object : ℕ) (tid : BitVec 32) (t : CapTable) :
    capCreate type rights object tid t = (0, t) ∨ ∃ i, allocSlot t = some i ∧
      capCreate type rights object tid t = (t.nextId,
        countUp (setSlot i ⟨t.nextId, type, rights, object, 0, 1, tid, true⟩ (issueId t))) := by
  cases halloc : allocSlot t with
  | none => exact .inl (by rw [capCreate, halloc])
  | some i => exact .inr ⟨i, rfl, by rw [capCreate, halloc]⟩

def derivedCap (t : CapTable) (j parentId : ℕ) (rights : BitVec 32) : Capability :=
  ⟨t.nextId, (t.slots j).type, rights, (t.slots j).object, parentId, 1, (t.slots j).ownerTid, true⟩

theorem capDerive_cases (parentId : ℕ) (rights : BitVec 32) (t : CapTable) :
    capDerive parentId rights t = (0, t) ∨ ∃ i j, allocSlot t = some i ∧ capGet t parentId = some j ∧
      RightsLe rights (t.slots j).rights ∧ (t.slots j).rights &&& capRightManage ≠ 0 ∧
      capDerive parentId rights t = (t.nextId,
        countUp (capAddref parentId (setSlot i (derivedCap t j parentId rights) (issueId t)))) := by
  simp only [capDerive]
  split
  · exact .inl rfl
  · rename_i j hget
    split
    · exact .inl rfl
    · rename_i hrights
      split
      · exact .inl rfl
      · rename_i hmanage
        split
        · exact .inl rfl
        · rename_i i halloc
          exact .inr ⟨i, j, halloc, hget, by simpa [RightsLe] using hrights, hmanage, rfl⟩

theorem nextId_issueId {t : CapTable} (h : t.nextId + 1 < uint32Size) : (issueId t).nextId = t.nextId + 1 := by
  rw [issueId]
  simp only [Nat.mod_eq_of_lt h]
  exact if_neg (by omega)

namespace Recorded

theorem init : Recorded System.init := by
  refine ⟨rfl, fun i hi => absurd hi Bool.false_ne_true, ?_, fun x e he => ?_⟩
  · rintro x p ⟨-, e, he, -⟩
    simp [record, System.init] at he
  · simp [record, System.init] at he

section

variable (h : Recorded s)
include h

theorem shrink {t : CapTable} (hshrink : Shrinks s.table t) (held : ℕ → ℕ) : Recorded ⟨t, s.log, held⟩ := by
  refine ⟨hshrink.nextId.trans h.nextId, fun i hi => ?_, h.parent_lt, h.derived⟩
  obtain ⟨hvalid, hsame⟩ := hshrink.slot i hi
  rw [hsame.recordOf_eq]
  exact (congrArg _ hsame.id).trans (h.logged i hvalid)

theorem extend {t : CapTable} {held : ℕ → ℕ} (hnext : t.nextId = s.log.length + 2)
    (hslots : ∀ i, (t.slots i).valid → ((s.table.slots i).valid ∧
      SameIdentity (s.table.slots i) (t.slots i)) ∨
      (t.slots i).id = s.log.length + 1 ∧ recordOf (t.slots i) = e)
    (hparent : e.parent ≠ 0 → ∃ f, record s.log e.parent = some f ∧ RightsLe e.rights f.rights ∧
      f.rights &&& capRightManage ≠ 0 ∧ e.type = f.type ∧ e.object = f.object) :
    Recorded ⟨t, s.log ++ [e], held⟩ := by
  refine ⟨by simpa using hnext, fun i hi => ?_, ?_, fun x g hx hne => ?_⟩
  · rcases hslots i hi with ⟨hvalid, hsame⟩ | ⟨hid, hrec⟩
    · refine record_append ?_
      rw [hsame.id, hsame.recordOf_eq]
      exact h.logged i hvalid
    · rw [hid, hrec]
      exact record_append_self
  · rintro x p ⟨hp, g, hx, rfl⟩
    by_cases hnew : x = s.log.length + 1
    · subst hnew
      obtain rfl : e = g := some.inj (record_append_self.symm.trans hx)
      obtain ⟨f, hf, -⟩ := hparent hp
      have := (record_lt hf).2
      omega
    · exact h.parent_lt x _ ⟨hp, g, record_of_append hx hnew, rfl⟩
  · by_cases hnew : x = s.log.length + 1
    · subst hnew
      obtain rfl : e = g := some.inj (record_append_self.symm.trans hx)
      obtain ⟨f, hf, hrest⟩ := hparent hne
      exact ⟨f, record_append hf, hrest⟩
    · obtain ⟨f, hf, hrest⟩ := h.derived x g (record_of_append hx hnew) hne
      exact ⟨f, record_append hf, hrest⟩

theorem id_le (hi : (s.table.slots i).valid) :
    (s.table.slots i).id ≠ 0 ∧ (s.table.slots i).id ≤ s.log.length := record_lt (h.logged i hi)

theorem create {type rights : BitVec 32} {object : ℕ} {tid : BitVec 32}
    (hlast : (s.exec (.create type rights object tid)).log.length < uint32Size - 1) :
    Recorded (s.exec (.create type rights object tid)) := by
  rw [System.exec] at hlast ⊢
  rcases capCreate_cases type rights object tid s.table with hfail | ⟨i, -, hcreate⟩
  · rw [hfail]
    exact h.shrink (.refl _) _
  · rw [hcreate, System.issue, if_neg (by rw [h.nextId]; omega)] at hlast ⊢
    rw [List.length_append, List.length_singleton] at hlast
    refine h.extend ?_ (fun k hk => ?_) fun hne => absurd rfl hne
    · change (issueId s.table).nextId = _
      rw [nextId_issueId (by rw [h.nextId]; omega), h.nextId]
    · rw [slots_countUp, slots_setSlot] at hk ⊢
      split_ifs at hk with heq
      · rw [if_pos heq]
        exact .inr ⟨h.nextId, rfl⟩
      · rw [if_neg heq]
        exact .inl ⟨hk, .refl _⟩

theorem derive {parentId : ℕ} {rights : BitVec 32}
    (hlast : (s.exec (.derive parentId rights)).log.length < uint32Size - 1) :
    Recorded (s.exec (.derive parentId rights)) := by
  simp only [System.exec] at hlast ⊢
  rcases capDerive_cases parentId rights s.table with hfail | ⟨i, j, -, hget, hle, hmanage, hderive⟩
  · rw [hfail]
    exact h.shrink (.refl _) _
  · obtain ⟨-, hjvalid, hjid, hne⟩ := capGet_some hget
    have hentry : inherited s.table parentId rights = recordOf (derivedCap s.table j parentId rights) := by
      rw [inherited, hget]
      rfl
    rw [hderive, System.issue, if_neg (by rw [h.nextId]; omega)] at hlast ⊢
    rw [List.length_append, List.length_singleton] at hlast
    have hadd := shrinks_capAddref parentId (setSlot i (derivedCap s.table j parentId rights) (issueId s.table))
    rw [hentry]
    refine h.extend ?_ (fun k hk => ?_) fun _ => ?_
    · rw [nextId_countUp, hadd.nextId]
      change (issueId s.table).nextId = _
      rw [nextId_issueId (by rw [h.nextId]; omega), h.nextId]
    · rw [slots_countUp] at hk ⊢
      obtain ⟨hmid, hsame⟩ := hadd.slot k hk
      rw [slots_setSlot] at hmid hsame
      split_ifs at hmid with heq
      · rw [if_pos heq] at hsame
        exact .inr ⟨hsame.id.trans h.nextId, hsame.recordOf_eq⟩
      · rw [if_neg heq] at hsame
        exact .inl ⟨hmid, hsame⟩
    · refine ⟨recordOf (s.table.slots j), ?_, hle, hmanage, rfl, rfl⟩
      change record s.log parentId = _
      rw [← hjid]
      exact h.logged j hjvalid

theorem step {c : Call} (hstep : Step s c s') : Recorded s' := by
  obtain ⟨rfl, hlast⟩ := hstep
  cases c with
  | create type rights object tid => exact h.create hlast
  | derive parentId rights => exact h.derive hlast
  | addref id => exact h.shrink (shrinks_capAddref _ _) _
  | release id => exact h.shrink (shrinks_releaseFrom _ _ _) _
  | transfer id tid => exact h.shrink (shrinks_capTransfer _ _ _) _
  | revoke id => exact h.shrink (shrinks_revokeFrom _ _ _) _

theorem ancestor {a : ℕ} (hx : record s.log x = some e) (ha : Ancestor s.log a x) :
    ∃ f, record s.log a = some f ∧ RightsLe e.rights f.rights ∧ f.rights &&& capRightManage ≠ 0 ∧
      e.type = f.type ∧ e.object = f.object := by
  induction ha with
  | single hp =>
    obtain ⟨hne, g, hg, rfl⟩ := hp
    obtain rfl := some.inj (hx.symm.trans hg)
    exact h.derived x e hx hne
  | tail _ hp ih =>
    obtain ⟨f, hf, hle, -, htype, hobject⟩ := ih
    obtain ⟨hne, g, hg, rfl⟩ := hp
    obtain rfl := some.inj (hf.symm.trans hg)
    obtain ⟨g, hg, hle', hmanage, htype', hobject'⟩ := h.derived _ f hf hne
    exact ⟨g, hg, hle.trans hle', hmanage, htype.trans htype', hobject.trans hobject'⟩

end

end Recorded

/-- No capability has more rights than those from which it was derived, in any run of the calls. -/
theorem derivation_attenuates {calls : List Call} {a : ℕ} (hrun : Run Step System.init calls s)
    (hvalid : (s.table.slots i).valid = true) (ha : Ancestor s.log a (s.table.slots i).id) :
    ∃ f, record s.log a = some f ∧ RightsLe (s.table.slots i).rights f.rights ∧
      f.rights &&& capRightManage ≠ 0 ∧ (s.table.slots i).type = f.type ∧
      (s.table.slots i).object = f.object ∧
      ∀ q, capCheck s.table (s.table.slots i).id q = true → f.rights &&& q = q := by
  have h : Recorded s := hrun.invariant (fun _ _ _ h hstep => h.step hstep) Recorded.init
  have hrec := h.logged i hvalid
  obtain ⟨f, hf, hle, hmanage, htype, hobject⟩ := h.ancestor hrec ha
  refine ⟨f, hf, hle, hmanage, htype, hobject, fun q hq => ?_⟩
  rw [capCheck] at hq
  split at hq
  · cases hq
  · rename_i j hget
    -- the slot that the check finds may be another one, but it has the same record
    obtain ⟨-, hjvalid, hjid, -⟩ := capGet_some hget
    have hjrec := h.logged j hjvalid
    rw [hjid, hrec] at hjrec
    have hrights : (s.table.slots i).rights = (s.table.slots j).rights :=
      congrArg Record.rights (some.inj hjrec)
    refine hle.and_eq (r := (s.table.slots i).rights) ?_
    rw [hrights]
    simpa using hq

def derivedPair : System :=
  (System.init.exec (.create 2 0x7F 100 1)).exec (.derive 1 0x41)

theorem run_derivedPair : Run Step System.init [.create 2 0x7F 100 1, .derive 1 0x41] derivedPair :=
  .cons ⟨rfl, by decide +kernel⟩ (.cons ⟨rfl, by decide +kernel⟩ (.nil _))

/-- The derived capability of the pair is checked against the root. -/
theorem derivation_attenuates_derivedPair :
    ∃ f, record derivedPair.log 1 = some f ∧ RightsLe (derivedPair.table.slots 1).rights f.rights ∧
      f.rights &&& capRightManage ≠ 0 ∧ (derivedPair.table.slots 1).type = f.type ∧
      (derivedPair.table.slots 1).object = f.object ∧
      ∀ q, capCheck derivedPair.table (derivedPair.table.slots 1).id q = true → f.rights &&& q = q := by
  have hid : (derivedPair.table.slots 1).id = 2 := by decide +kernel
  refine derivation_attenuates run_derivedPair (by decide +kernel) (.single ?_)
  rw [hid]
  exact ⟨by decide, ⟨2, 0x41, 100, 1⟩, by decide +kernel, rfl⟩

end

end AetherOs.Cap
