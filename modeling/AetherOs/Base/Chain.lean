import Mathlib.Data.List.Nodup

/-! # Null-terminated pointer chains -/

namespace AetherOs.Base

open Function List

variable {α : Type*}

inductive Chain (next : α → α) (null : α) : α → List α → Prop
  | nil : Chain next null null []
  | cons {a : α} {l : List α} : a ≠ null → Chain next null (next a) l → Chain next null a (a :: l)

namespace Chain

variable {next next' : α → α} {null a b : α} {l l' : List α}

theorem head_nil (h : Chain next null a []) : a = null := by
  cases h
  rfl

theorem head_cons (h : Chain next null a (b :: l)) : a = b ∧ b ≠ null ∧ Chain next null (next b) l := by
  cases h with
  | cons hne htail => exact ⟨rfl, hne, htail⟩

theorem of_null (h : Chain next null null l) : l = [] := by
  cases h with
  | nil => rfl
  | cons hne _ => exact absurd rfl hne

instance decidable [DecidableEq α] (next : α → α) (null : α) :
    ∀ (a : α) (l : List α), Decidable (Chain next null a l)
  | a, [] => decidable_of_iff (a = null) ⟨fun h => h ▸ .nil, fun h => h.head_nil⟩
  | a, b :: l =>
    have := decidable next null (next b) l
    decidable_of_iff (a = b ∧ b ≠ null ∧ Chain next null (next b) l)
      ⟨fun ⟨hab, hb, hl⟩ => hab.symm ▸ .cons hb hl, fun h => h.head_cons⟩

theorem suffix (pre : List α) (h : Chain next null a (pre ++ l)) : ∃ c, Chain next null c l := by
  induction pre generalizing a with
  | nil => exact ⟨a, h⟩
  | cons b pre ih => exact ih (head_cons h).2.2

theorem suffix_cons (pre : List α) (h : Chain next null a (pre ++ b :: l)) :
    Chain next null b (b :: l) := by
  obtain ⟨c, hc⟩ := suffix pre h
  obtain ⟨rfl, _, _⟩ := head_cons hc
  exact hc

section

variable (h : Chain next null a l)
include h

theorem of_ne_null (ha : a ≠ null) : ∃ rest, l = a :: rest ∧ Chain next null (next a) rest := by
  cases h with
  | nil => exact absurd rfl ha
  | cons _ htail => exact ⟨_, rfl, htail⟩

theorem head_eq_headD : a = l.headD null := by
  cases h <;> rfl

theorem ne_null : ∀ x ∈ l, x ≠ null := by
  induction h with
  | nil => simp
  | cons hne _ ih =>
    intro x hx
    rcases mem_cons.mp hx with rfl | hx
    · exact hne
    · exact ih x hx

theorem unique (h' : Chain next null a l') : l = l' := by
  induction h generalizing l' with
  | nil => exact (of_null h').symm
  | cons hne _ ih =>
    obtain ⟨rest, rfl, hrest⟩ := of_ne_null h' hne
    rw [ih hrest]

theorem congr (hagree : ∀ x ∈ l, next' x = next x) : Chain next' null a l := by
  induction h with
  | nil => exact .nil
  | @cons a l hne _ ih =>
    refine .cons hne ?_
    rw [hagree a mem_cons_self]
    exact ih fun x hx => hagree x (mem_cons_of_mem _ hx)

theorem nodup : l.Nodup := by
  induction h with
  | nil => exact nodup_nil
  | @cons a l hne htail ih =>
    refine nodup_cons.mpr ⟨fun hmem => ?_, ih⟩
    obtain ⟨pre, post, rfl⟩ := append_of_mem hmem
    have hagain := suffix_cons pre htail
    have hlen := congrArg List.length (unique (.cons hne htail) hagain)
    simp only [length_cons, length_append] at hlen
    omega

end

theorem next_eq_headD (pre : List α) (h : Chain next null a (pre ++ b :: l)) : next b = l.headD null := by
  exact (suffix_cons pre h).head_cons.2.2.head_eq_headD

theorem graft (next' : α → α) (pre : List α) (h : Chain next null a (pre ++ l))
    (hkeep : ∀ x ∈ pre.dropLast, next' x = next x)
    (hlast : ∀ x ∈ pre.getLast?, next' x = b) (hb : Chain next' null b l') :
    Chain next' null (if pre = [] then b else a) (pre ++ l') := by
  induction pre generalizing a with
  | nil => simpa using hb
  | cons c pre ih =>
    obtain ⟨rfl, hne, htail⟩ := head_cons h
    simp only [cons_append, reduceCtorEq, if_false]
    refine .cons hne ?_
    cases pre with
    | nil =>
      rw [hlast a (by simp)]
      simpa using hb
    | cons d pre =>
      rw [hkeep a (by simp)]
      have hrest := ih htail (fun x hx => hkeep x (by
        rw [dropLast_cons_of_ne_nil (by simp)]
        exact mem_cons_of_mem _ hx)) (fun x hx => hlast x (by simpa using hx))
      simpa using hrest

end Chain

def PrevLinks (prev : α → α) : α → List α → Prop
  | _, [] => True
  | p, a :: l => prev a = p ∧ PrevLinks prev a l

structure LinkedList (next prev : α → α) (null head : α) (l : List α) : Prop where
  forward : Chain next null head l
  backward : PrevLinks prev null l

theorem PrevLinks.congr {prev prev' : α → α} {p : α} {l : List α} (h : PrevLinks prev p l)
    (hagree : ∀ x ∈ l, prev' x = prev x) : PrevLinks prev' p l := by
  induction l generalizing p with
  | nil => trivial
  | cons a l ih =>
    refine ⟨(hagree a mem_cons_self).trans h.1, ih h.2 fun x hx => ?_⟩
    exact hagree x (mem_cons_of_mem _ hx)

theorem PrevLinks.rebase [DecidableEq α] {prev : α → α} {p q a : α} {l : List α}
    (h : PrevLinks prev p (a :: l)) (ha : a ∉ l) : PrevLinks (update prev a q) q (a :: l) := by
  refine ⟨update_self _ _ _, PrevLinks.congr h.2 fun x hx => ?_⟩
  exact update_of_ne (ne_of_mem_of_not_mem hx ha) _ _

theorem prevLinks_append {prev : α → α} {p : α} {l l' : List α} :
    PrevLinks prev p (l ++ l') ↔ PrevLinks prev p l ∧ PrevLinks prev (l.getLast?.getD p) l' := by
  induction l generalizing p with
  | nil => simp [PrevLinks]
  | cons a l ih =>
    have hlast : ((a :: l).getLast?).getD p = l.getLast?.getD a := by
      cases l <;> simp [List.getLast?_cons]
    simp only [cons_append, PrevLinks, ih, hlast, and_assoc]

namespace LinkedList

variable [DecidableEq α] {next prev next' prev' : α → α} {null head a : α} {l : List α}

omit [DecidableEq α] in
theorem congr (h : LinkedList next prev null head l) (hnext : ∀ x ∈ l, next' x = next x)
    (hprev : ∀ x ∈ l, prev' x = prev x) : LinkedList next' prev' null head l :=
  ⟨h.forward.congr hnext, h.backward.congr hprev⟩

omit [DecidableEq α] in
theorem next_mem (h : LinkedList next prev null head l) (ha : a ∈ l) (hne : next a ≠ null) :
    next a ∈ l := by
  obtain ⟨pre, post, rfl⟩ := append_of_mem ha
  cases post with
  | nil => exact absurd (h.forward.next_eq_headD pre) hne
  | cons b post =>
    rw [h.forward.next_eq_headD pre]
    simp

omit [DecidableEq α] in
theorem prev_mem (h : LinkedList next prev null head l) (ha : a ∈ l) (hne : prev a ≠ null) :
    prev a ∈ l := by
  obtain ⟨pre, post, rfl⟩ := append_of_mem ha
  have hprev : prev a = pre.getLast?.getD null := (prevLinks_append.mp h.backward).2.1
  rcases eq_nil_or_concat' pre with rfl | ⟨front, p, rfl⟩
  · exact absurd hprev hne
  · rw [hprev]
    simp

theorem push (h : LinkedList next prev null head l) (hne : a ≠ null) (hnew : a ∉ l) :
    LinkedList (update next a head)
      (if head ≠ null then update (update prev a null) head a
        else update prev a null) null a (a :: l) := by
  have hkeep : ∀ x ∈ l, update next a head x = next x := fun x hx =>
    update_of_ne (ne_of_mem_of_not_mem hx hnew) _ _
  refine ⟨.cons hne ?_, ?_⟩
  · rw [update_self]
    exact h.forward.congr hkeep
  · have hback : PrevLinks (update prev a null) null l := h.backward.congr fun x hx =>
      update_of_ne (ne_of_mem_of_not_mem hx hnew) _ _
    by_cases hhead : head = null
    · subst hhead
      rw [h.forward.of_null, if_neg (by simp)]
      exact ⟨update_self _ _ _, trivial⟩
    · rw [if_pos hhead]
      obtain ⟨rest, rfl, _⟩ := h.forward.of_ne_null hhead
      have hhnot : head ∉ rest := (nodup_cons.mp h.forward.nodup).1
      have hah : a ≠ head := fun hah => hnew (hah ▸ mem_cons_self)
      refine ⟨?_, hback.rebase hhnot⟩
      rw [update_of_ne hah, update_self]

theorem pop (h : LinkedList next prev null a (a :: l)) :
    LinkedList next (if next a ≠ null then update prev (next a) null else prev)
      null (next a) l := by
  obtain ⟨_, _, htail⟩ := h.forward.head_cons
  refine ⟨htail, ?_⟩
  by_cases hnext : next a = null
  · rw [hnext] at htail
    rw [htail.of_null]
    trivial
  · rw [if_pos hnext]
    obtain ⟨rest, rfl, hrest⟩ := htail.of_ne_null hnext
    exact h.backward.2.rebase (nodup_cons.mp htail.nodup).1

theorem remove_first (h : LinkedList next prev null head (a :: l)) :
    LinkedList next (if next a ≠ null then update prev (next a) null else prev)
      null (next a) l := by
  obtain ⟨rfl, _, _⟩ := h.forward.head_cons
  exact h.pop

theorem remove (pre : List α) (h : LinkedList next prev null head (pre ++ a :: l)) :
    LinkedList (if prev a ≠ null then update next (prev a) (next a) else next)
      (if next a ≠ null then update prev (next a) (prev a) else prev) null
      (if prev a ≠ null then head else next a) (pre ++ l) := by
  obtain ⟨hpre, hprev, hpost⟩ := prevLinks_append.mp h.backward
  rcases eq_nil_or_concat' pre with rfl | ⟨front, p, rfl⟩
  · have hnull : prev a = null := hprev
    rw [if_neg (not_not.mpr hnull), if_neg (not_not.mpr hnull), hnull]
    exact remove_first h
  · have hp : prev a = p := by simpa using hprev
    have hnodup := h.forward.nodup
    have hpne : p ≠ null := h.forward.ne_null p (by simp)
    have htail := (h.forward.suffix_cons (front ++ [p])).head_cons.2.2
    have hsplit := nodup_append.mp hnodup
    have hpl : p ∉ l := fun hpl =>
      hsplit.2.2 p (by simp) p (mem_cons_of_mem _ hpl) rfl
    have hpfront : p ∉ front := fun hpf =>
      (nodup_append.mp hsplit.1).2.2 p hpf p (by simp) rfl
    rw [hp, if_pos hpne, if_pos hpne]
    refine ⟨?_, ?_⟩
    · have hgraft := h.forward.graft (update next p (next a))
        (front ++ [p]) (fun x hx => ?_) (fun x hx => ?_) (htail.congr fun x hx => ?_)
      · simpa using hgraft
      · rw [dropLast_concat] at hx
        exact update_of_ne (ne_of_mem_of_not_mem hx hpfront) _ _
      · obtain rfl : p = x := by simpa using hx
        exact update_self _ _ _
      · exact update_of_ne (ne_of_mem_of_not_mem hx hpl) _ _
    · refine prevLinks_append.mpr ⟨?_, ?_⟩
      · split_ifs with hnext
        · obtain ⟨rest, rfl, _⟩ := htail.of_ne_null hnext
          refine hpre.congr fun x hx => update_of_ne ?_ _ _
          rintro rfl
          exact hsplit.2.2 _ hx _ (by simp) rfl
        · exact hpre
      · rw [List.getLast?_concat, Option.getD_some]
        by_cases hnext : next a = null
        · rw [hnext] at htail
          rw [htail.of_null]
          trivial
        · rw [if_pos hnext]
          obtain ⟨rest, rfl, _⟩ := htail.of_ne_null hnext
          exact hpost.rebase (nodup_cons.mp htail.nodup).1

end LinkedList

end AetherOs.Base
