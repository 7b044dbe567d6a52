import AetherOs.Base.Chain
import AetherOs.Base.Dyadic
import AetherOs.Buddy.Model

/-! # The invariant of the buddy allocator -/

namespace AetherOs.Buddy

open Base Function List

section

def ofOrder (o : ℕ) (bs : List Block) : List Block := bs.filter fun x => x.order = o

def nodeOf (b : BuddyAllocator) (x : Block) : ℕ := pageAddr b x.start

structure Inv (b : BuddyAllocator) (P : Set ℕ) (frees live : List Block) : Prop where
  region : b.baseVirt + b.totalPages * pageSize ≤ wordSize
  total_le : b.totalPages ≤ buddyMaxPages
  lists : ∀ o, LinkedList b.next b.prev 0 (b.free o).head ((ofOrder o frees).map (nodeOf b))
  count : ∀ o, (b.free o).count = (ofOrder o frees).length
  map_free : ∀ x ∈ frees, b.orderMap x.start = x.order
  map_other : ∀ p < b.totalPages, (∀ x ∈ frees, x.start ≠ p) → b.orderMap p = allocated
  order_le : ∀ x ∈ frees ++ live, x.order ≤ buddyMaxOrder
  partition : Partitions (frees ++ live) P
  bounds : ∀ p ∈ P, mapPages b.totalPages ≤ p ∧ p < b.totalPages
  coalesced : Coalesced buddyMaxOrder frees

variable {b : BuddyAllocator} {P : Set ℕ} {frees live live' : List Block} {x y : Block} {o p : ℕ}

theorem mem_ofOrder {bs : List Block} : x ∈ ofOrder o bs ↔ x ∈ bs ∧ x.order = o := by
  simp [ofOrder]

theorem mapPages_pos {n : ℕ} (h : 0 < n) : 0 < mapPages n := by
  simp only [mapPages, pageSize]
  omega

theorem perm_middle_two (l m : List Block) : (l ++ y :: x :: m).Perm (x :: y :: (l ++ m)) :=
  perm_middle.trans ((perm_middle.cons y).trans (.swap x y _))

namespace Inv

section

variable (h : Inv b P frees live)

include h

theorem pageAddr_eq (hp : p < b.totalPages) :
    pageAddr b p = b.baseVirt + p * pageSize := by
  have := h.region
  refine addWord_eq ?_
  simp only [pageSize] at *
  omega

theorem pageIdx_pageAddr (hp : p < b.totalPages) :
    pageIdx b (pageAddr b p) = p := by
  have hregion := h.region
  rw [pageIdx, h.pageAddr_eq hp, subWord_eq (by simp only [pageSize] at *; omega) (by omega),
    Nat.add_sub_cancel_left]
  exact Nat.mul_div_cancel _ (by decide)

section

variable (hx : x ∈ frees ++ live)
include hx

theorem start_bounds : mapPages b.totalPages ≤ x.start ∧ x.start < b.totalPages :=
  h.bounds _ (h.partition.only x hx _ x.has_start)

theorem nodeOf_ne_zero : nodeOf b x ≠ 0 := by
  obtain ⟨hlow, hhigh⟩ := h.start_bounds hx
  have := mapPages_pos (n := b.totalPages) (by omega)
  rw [nodeOf, h.pageAddr_eq hhigh]
  simp only [pageSize]
  omega

theorem eq_of_start (hy : y ∈ frees ++ live) (heq : x.start = y.start): x = y :=
  h.partition.eq_of_has hx hy x.has_start (by rw [heq]; exact y.has_start)

theorem eq_of_nodeOf (hy : y ∈ frees ++ live) (heq : nodeOf b x = nodeOf b y): x = y := by
  rw [nodeOf, nodeOf, h.pageAddr_eq (h.start_bounds hx).2, h.pageAddr_eq (h.start_bounds hy).2] at heq
  refine h.eq_of_start hx hy ?_
  simp only [pageSize] at heq
  omega

end

theorem length_le : (frees ++ live).length ≤ b.totalPages := by
  have hnodup : ((frees ++ live).map Block.start).Nodup :=
    List.Nodup.map_on (fun x hx y hy heq => h.eq_of_start hx hy heq) h.partition.nodup
  have hsub : (frees ++ live).map Block.start ⊆ List.range b.totalPages := fun p hp => by
    obtain ⟨x, hx, rfl⟩ := mem_map.mp hp
    exact mem_range.mpr (h.start_bounds hx).2
  simpa using (hnodup.subperm hsub).length_le

theorem perm (hperm : live.Perm live') : Inv b P frees live' :=
  { h with
    order_le := fun x hx => h.order_le x ((hperm.append_left frees).mem_iff.mpr hx)
    partition := h.partition.perm (hperm.append_left frees) }

end

theorem split (h : Inv b P frees (x.parent :: live)) : Inv b P frees (x.buddy :: x :: live) :=
  { h with
    order_le := fun y hy => by
      have hparent : x.order + 1 ≤ buddyMaxOrder := h.order_le x.parent (by simp)
      have hbuddy : x.buddy.order = x.order := rfl
      have hrest := h.order_le y
      simp only [mem_append, mem_cons] at hy hrest
      rcases hy with hy | rfl | rfl | hy
      · exact hrest (.inl hy)
      · omega
      · omega
      · exact hrest (.inr (.inr hy))
    partition := (Partitions.parent_iff.mp (h.partition.perm perm_middle)).perm
      (perm_middle_two frees live).symm }

theorem join (h : Inv b P frees (x.buddy :: x :: live)) (hx : x.order < buddyMaxOrder) :
    Inv b P frees (x.parent :: live) :=
  { h with
    order_le := fun y hy => by
      have hrest := h.order_le y
      simp only [mem_append, mem_cons] at hy hrest
      rcases hy with hy | rfl | hy
      · exact hrest (.inl hy)
      · exact hx
      · exact hrest (.inr (.inr (.inr hy)))
    partition := (Partitions.parent_iff.mpr (h.partition.perm (perm_middle_two frees live))).perm
      perm_middle.symm }

end Inv

end

/-! ## The list operations -/

section

variable {b : BuddyAllocator} {P : Set ℕ} {frees live pre post : List Block} {x : Block} {o : ℕ}

theorem ofOrder_cons : ofOrder o (x :: frees) =
    if x.order = o then x :: ofOrder o frees else ofOrder o frees := by
  by_cases hx : x.order = o <;> simp [ofOrder, hx]

theorem ofOrder_append_cons : ofOrder o (pre ++ x :: post) =
    if x.order = o then ofOrder o pre ++ x :: ofOrder o post else ofOrder o (pre ++ post) := by
  by_cases hx : x.order = o <;> simp [ofOrder, hx]

theorem ofOrder_append : ofOrder o (pre ++ post) = ofOrder o pre ++ ofOrder o post := by
  simp [ofOrder]

namespace Inv

theorem nodeOf_not_mem (h : Inv b P frees live) (hx : x ∈ frees ++ live) (hno : x ∉ ofOrder o frees) :
    nodeOf b x ∉ (ofOrder o frees).map (nodeOf b) := by
  intro hmem
  obtain ⟨y, hy, heq⟩ := mem_map.mp hmem
  have hyx := h.eq_of_nodeOf (by simp [(mem_ofOrder.mp hy).1]) hx heq
  exact hno (hyx ▸ hy)

theorem not_mem_of_ne (h : Inv b P frees live) {o' : ℕ} (hne : o' ≠ o) {a : ℕ}
    (ha : a ∈ (ofOrder o frees).map (nodeOf b)) : a ∉ (ofOrder o' frees).map (nodeOf b) := by
  obtain ⟨y, hy, rfl⟩ := mem_map.mp ha
  obtain ⟨hyf, hyo⟩ := mem_ofOrder.mp hy
  refine h.nodeOf_not_mem (by simp [hyf]) fun hy' => hne ?_
  rw [← (mem_ofOrder.mp hy').2, hyo]

theorem head_mem (h : Inv b P frees live) (hne : (b.free o).head ≠ 0) :
    (b.free o).head ∈ (ofOrder o frees).map (nodeOf b) := by
  obtain ⟨rest, heq, _⟩ := (h.lists o).forward.of_ne_null hne
  rw [heq]
  exact mem_cons_self

section

variable (h : Inv b P frees (x :: live))
include h

theorem not_mem_frees : x ∉ frees := fun hf =>
  (nodup_append.mp h.partition.nodup).2.2 x hf x (by simp) rfl

theorem push_lists (o : ℕ) :
    LinkedList (push x.order x.start b).next (push x.order x.start b).prev 0
      ((push x.order x.start b).free o).head ((ofOrder o (x :: frees)).map (nodeOf b)) := by
  have hx : x ∈ frees ++ x :: live := by simp
  have hnot (o : ℕ) : nodeOf b x ∉ (ofOrder o frees).map (nodeOf b) :=
    h.nodeOf_not_mem hx fun hm => h.not_mem_frees (mem_ofOrder.mp hm).1
  rw [ofOrder_cons]
  by_cases ho : x.order = o
  · subst ho
    simp only [if_true, Buddy.push, update_self, map_cons]
    exact (h.lists x.order).push (h.nodeOf_ne_zero hx) (hnot _)
  · simp only [if_neg ho, Buddy.push, update_of_ne (Ne.symm ho)]
    refine (h.lists o).congr (fun a ha => ?_) (fun a ha => ?_)
    · exact update_of_ne (ne_of_mem_of_not_mem ha (hnot o)) _ _
    · have hnode : update b.prev (pageAddr b x.start) 0 a = b.prev a :=
        update_of_ne (ne_of_mem_of_not_mem ha (hnot o)) _ _
      split_ifs with hhead
      · rw [update_of_ne, hnode]
        exact ne_of_mem_of_not_mem ha (h.not_mem_of_ne (Ne.symm ho) (h.head_mem hhead))
      · exact hnode

theorem push_count (o : ℕ) : ((push x.order x.start b).free o).count = (ofOrder o (x :: frees)).length := by
  have hlen : (ofOrder x.order frees).length + 1 ≤ buddyMaxPages := by
    have hsub : (ofOrder x.order frees).length ≤ frees.length := length_filter_le _ _
    have hall := h.length_le.trans h.total_le
    simp only [length_append, length_cons] at hall
    omega
  rw [ofOrder_cons]
  by_cases ho : x.order = o
  · subst ho
    simp only [if_true, Buddy.push, update_self, length_cons, h.count]
    exact Nat.mod_eq_of_lt (by simp only [countSize, buddyMaxPages] at *; omega)
  · simp only [if_neg ho, Buddy.push, update_of_ne (Ne.symm ho), h.count]

theorem push (hbuddy : x.order < buddyMaxOrder → x.buddy ∉ frees) :
    Inv (push x.order x.start b) P (x :: frees) live := by
  have hx : x ∈ frees ++ x :: live := by simp
  have hperm : (frees ++ x :: live).Perm (x :: frees ++ live) := perm_middle
  refine
    { h with
      lists := h.push_lists
      count := h.push_count
      map_free := fun y hy => ?_
      map_other := fun p hp hother => ?_
      order_le := fun y hy => h.order_le y (hperm.mem_iff.mpr hy)
      partition := h.partition.perm hperm
      coalesced := fun y hy hlt hb => ?_ }
  · rcases mem_cons.mp hy with rfl | hy
    · have := h.order_le y hx
      simp only [Buddy.push, update_self]
      exact Nat.mod_eq_of_lt (by simp only [buddyMaxOrder] at this; omega)
    · have hne : y.start ≠ x.start := fun heq =>
        h.not_mem_frees (h.eq_of_start (x := y) (y := x) (by simp [hy]) hx heq ▸ hy)
      simp only [Buddy.push, update_of_ne hne]
      exact h.map_free y hy
  · have hne : p ≠ x.start := fun heq => hother x (by simp) heq.symm
    simp only [Buddy.push, update_of_ne hne]
    exact h.map_other p hp fun y hy => hother y (by simp [hy])
  · rcases mem_cons.mp hy with rfl | hy
    · rcases mem_cons.mp hb with heq | hb
      · exact y.buddy_ne heq
      · exact hbuddy hlt hb
    · rcases mem_cons.mp hb with heq | hb
      · refine hbuddy (heq ▸ hlt) ?_
        rw [← heq, Block.buddy_buddy]
        exact hy
      · exact h.coalesced y hy hlt hb

end

theorem remove_lists (h : Inv b P (pre ++ x :: post) live) (o : ℕ) :
    LinkedList (remove x.order x.start b).next (remove x.order x.start b).prev 0
      ((remove x.order x.start b).free o).head ((ofOrder o (pre ++ post)).map (nodeOf b)) := by
  have hlist := h.lists x.order
  have hmem : nodeOf b x ∈ (ofOrder x.order (pre ++ x :: post)).map (nodeOf b) :=
    mem_map_of_mem (mem_ofOrder.mpr ⟨by simp, rfl⟩)
  by_cases ho : x.order = o
  · subst ho
    rw [ofOrder_append_cons, if_pos rfl, map_append, map_cons] at hlist
    simp only [Buddy.remove, update_self, ofOrder_append, map_append]
    exact hlist.remove _
  · have hsame : ofOrder o (pre ++ post) = ofOrder o (pre ++ x :: post) := by
      rw [ofOrder_append_cons, if_neg ho]
    simp only [Buddy.remove, update_of_ne (Ne.symm ho), hsame]
    refine (h.lists o).congr (fun a ha => ?_) (fun a ha => ?_)
    · split_ifs with hprev
      · refine update_of_ne (ne_of_mem_of_not_mem ha ?_) _ _
        exact h.not_mem_of_ne (Ne.symm ho) (hlist.prev_mem hmem hprev)
      · rfl
    · split_ifs with hnext
      · refine update_of_ne (ne_of_mem_of_not_mem ha ?_) _ _
        exact h.not_mem_of_ne (Ne.symm ho) (hlist.next_mem hmem hnext)
      · rfl

theorem remove_count (h : Inv b P (pre ++ x :: post) live) (o : ℕ) :
    ((remove x.order x.start b).free o).count = (ofOrder o (pre ++ post)).length := by
  have hcount := h.count o
  have hlen : (ofOrder o (pre ++ x :: post)).length ≤ buddyMaxPages := by
    have hsub : (ofOrder o (pre ++ x :: post)).length ≤ (pre ++ x :: post).length :=
      length_filter_le _ _
    have hall := h.length_le.trans h.total_le
    rw [length_append] at hall
    omega
  rw [ofOrder_append_cons] at hcount hlen
  by_cases ho : x.order = o
  · subst ho
    simp only [if_true, length_append, length_cons] at hcount hlen
    simp only [Buddy.remove, update_self, hcount, ofOrder_append, length_append]
    simp only [countSize, buddyMaxPages] at *
    omega
  · simp only [if_neg ho] at hcount
    simp only [Buddy.remove, update_of_ne (Ne.symm ho), hcount]

theorem remove (h : Inv b P (pre ++ x :: post) live) :
    Inv (remove x.order x.start b) P (pre ++ post) (x :: live) := by
  have hperm : (pre ++ x :: post ++ live).Perm (pre ++ post ++ x :: live) := by
    simpa using perm_middle.symm.append_left pre
  have hmem {y : Block} (hy : y ∈ pre ++ post) : y ∈ pre ++ x :: post := by
    simp only [mem_append, mem_cons] at hy ⊢
    tauto
  have hnot : x ∉ pre ++ post := by
    have hnodup := (nodup_append.mp h.partition.nodup).1
    exact (nodup_cons.mp (perm_middle.nodup_iff.mp hnodup)).1
  refine
    { h with
      lists := h.remove_lists
      count := h.remove_count
      map_free := fun y hy => ?_
      map_other := fun p hp hother => ?_
      order_le := fun y hy => h.order_le y (hperm.mem_iff.mpr hy)
      partition := h.partition.perm hperm
      coalesced := fun y hy hlt hb => h.coalesced y (hmem hy) hlt (hmem hb) }
  · have hne : y.start ≠ x.start := fun heq => by
      have hyx := h.eq_of_start (x := y) (y := x) (mem_append_left _ (hmem hy)) (by simp) heq
      exact hnot (hyx ▸ hy)
    simp only [Buddy.remove, update_of_ne hne]
    exact h.map_free y (hmem hy)
  · by_cases hpx : p = x.start
    · simp only [Buddy.remove, hpx, update_self]
    · simp only [Buddy.remove, update_of_ne hpx]
      refine h.map_other p hp fun y hy => ?_
      rcases mem_append.mp hy with hy | hy
      · exact hother y (by simp [hy])
      · rcases mem_cons.mp hy with rfl | hy
        · exact fun heq => hpx heq.symm
        · exact hother y (by simp [hy])

theorem pop_eq (h : Inv b P frees live) {rest : List Block} (hlist : ofOrder o frees = x :: rest) :
    pop o b = (x.start, Buddy.remove o x.start b) := by
  have hx : x ∈ frees := (mem_ofOrder.mp (hlist ▸ mem_cons_self)).1
  have hlinked := h.lists o
  rw [hlist, map_cons] at hlinked
  have hhead : (b.free o).head = pageAddr b x.start := hlinked.forward.head_cons.1
  have hprev : b.prev (pageAddr b x.start) = 0 := hlinked.backward.1
  have hne : pageAddr b x.start ≠ 0 := h.nodeOf_ne_zero (by simp [hx])
  have hidx : pageIdx b (pageAddr b x.start) = x.start :=
    h.pageIdx_pageAddr (h.start_bounds (by simp [hx])).2
  simp [pop, Buddy.remove, hhead, hprev, hne, hidx]

theorem pop (h : Inv b P frees live) (hne : (b.free o).count ≠ 0) :
    ∃ x frees', pop o b = (x.start, Buddy.remove o x.start b) ∧ x.order = o ∧ x ∈ frees ∧
      Inv (Buddy.remove o x.start b) P frees' (x :: live) := by
  cases hlist : ofOrder o frees with
  | nil =>
    rw [h.count, hlist] at hne
    exact absurd rfl hne
  | cons x rest =>
    obtain ⟨hx, horder⟩ := mem_ofOrder.mp (hlist ▸ mem_cons_self : x ∈ ofOrder o frees)
    obtain ⟨pre, post, rfl⟩ := append_of_mem hx
    refine ⟨x, pre ++ post, h.pop_eq hlist, horder, hx, ?_⟩
    rw [← horder]
    exact h.remove

end Inv

end

end AetherOs.Buddy
