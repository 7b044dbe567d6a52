import AetherOs.Base.Run
import AetherOs.Terminal.Model

/-! # Line editing -/

namespace AetherOs.Terminal

open Base List Option TtyCc GapRing

variable {tty tty' : Tty} {c : UInt8} {r : GapRing UInt8}

structure Editor where
  line : List UInt8
  done : List (List UInt8)
  deriving DecidableEq

def Editor.empty : Editor := ⟨[], []⟩

def Editor.key (c : UInt8) (e : Editor) : Editor :=
  if c = cr ∨ c = lf then { line := [], done := e.done ++ [e.line ++ [lf]] }
  else if c = default.erase then { e with line := e.line.dropLast }
  else if c = default.kill then { e with line := [] }
  else { e with line := e.line ++ [c] }

inductive TtyCall
  | key (c : UInt8)
  | read (buf : Bool) (n : ℕ)
  | write (buf : Bool) (bytes : List UInt8)

def Editor.exec (e : Editor) : TtyCall → Editor
  | .key c => e.key c
  | .read _ _ => e
  | .write _ _ => e

structure Session where
  tty : Tty
  reads : List (List UInt8)

def Session.exec (s : Session) : TtyCall → Option Session
  | .key c => some { s with tty := (ttyInputChar c s.tty).2 }
  | .read buf n =>
    match ttyRead buf n s.tty with
    | none => none
    | some (ret, cs, tty) => some { tty := tty, reads := if ret < 0 then s.reads else s.reads ++ [cs] }
  | .write buf bytes => some { s with tty := (ttyWrite buf bytes s.tty).2 }

def bytes (r : GapRing UInt8) : List UInt8 := r.contents ttyBufSize

def Plain (c : UInt8) : Prop :=
  c ≠ eofMark ∧ c ≠ default.eof ∧ c ≠ default.intr ∧ c ≠ default.quit ∧ c ≠ default.susp

def Roomy (s : Session) : Prop :=
  (bytes s.tty.canon).length ≤ ttyBufSize - 2 ∧ s.tty.input.isFull ttyBufSize = false

def Step (s : Session) (c : TtyCall) (s' : Session) : Prop :=
  (∀ b, c = .key b → Plain b) ∧ s.exec c = some s' ∧ Roomy s'

structure Canonical (tty : Tty) : Prop where
  valid : tty.valid = true
  cc : tty.cc = default
  icanon : tty.has ttyIcanon = true
  isig : tty.has ttyIsig = true
  icrnl : tty.has ttyIcrnl = true

structure Fresh (tty : Tty) : Prop extends Canonical tty where
  input : tty.input.WellFormed ttyBufSize
  canon : tty.canon.WellFormed ttyBufSize
  noInput : tty.input.isEmpty = true
  noLine : tty.canon.isEmpty = true

def WithinLines (lines reads : List (List UInt8)) : Prop :=
  ∀ i cs, reads[i]? = some cs → ∃ k before after, lines[k]? = some (before ++ cs ++ after) ∧
    (reads.take i).flatten = (lines.take k).flatten ++ before

structure SameMode (tty tty' : Tty) : Prop where
  valid : tty'.valid = tty.valid
  flags : tty'.flags = tty.flags
  cc : tty'.cc = tty.cc

theorem Canonical.of_sameMode (h : Canonical tty) (hsame : SameMode tty tty') : Canonical tty' := by
  obtain ⟨hvalid, hcc, hicanon, hisig, hicrnl⟩ := h
  simp only [Tty.has] at hicanon hisig hicrnl
  exact ⟨hsame.valid.trans hvalid, hsame.cc.trans hcc, by rw [Tty.has, hsame.flags, hicanon],
    by rw [Tty.has, hsame.flags, hisig], by rw [Tty.has, hsame.flags, hicrnl]⟩

theorem echo_eq (cs : List UInt8) (tty : Tty) : ∃ output, tty.echo cs = { tty with output := output } := by
  rw [Tty.echo]
  split
  · exact ⟨_, rfl⟩
  · exact ⟨tty.output, rfl⟩

theorem length_bytes_le (h : r.WellFormed ttyBufSize) : (bytes r).length ≤ ttyBufSize - 1 := by
  rw [bytes, length_contents]
  have := size_lt h
  omega

theorem take_append_take {α : Type*} (k : ℕ) (l m : List α) : (l.take k ++ m).take k = (l ++ m).take k := by
  rcases Nat.le_total l.length k with hle | hle
  · rw [take_of_length_le hle]
  · rw [take_append_of_le_length (by rw [length_take, Nat.min_eq_left hle]),
      take_append_of_le_length hle, take_take, Nat.min_self]

theorem moveLine_spec (fuel : ℕ) (hin : tty.input.WellFormed ttyBufSize) (hcanon : tty.canon.WellFormed ttyBufSize)
    (hfuel : (bytes tty.canon).length ≤ fuel) :
    ∃ input canon, moveLine fuel tty = { tty with input := input, canon := canon } ∧
      input.WellFormed ttyBufSize ∧ canon.WellFormed ttyBufSize ∧ bytes canon = [] ∧
      bytes input = (bytes tty.input ++ bytes tty.canon).take (ttyBufSize - 1) := by
  have hdone : bytes tty.canon = [] →
      bytes tty.input = (bytes tty.input ++ bytes tty.canon).take (ttyBufSize - 1) := by
    intro hnil
    rw [hnil, append_nil, take_of_length_le (length_bytes_le hin)]
  induction fuel generalizing tty with
  | zero =>
    have hnil : bytes tty.canon = [] := eq_nil_of_length_eq_zero (Nat.le_zero.mp hfuel)
    exact ⟨tty.input, tty.canon, rfl, hin, hcanon, hnil, hdone hnil⟩
  | succ fuel ih =>
    rw [moveLine]
    cases hempty : tty.canon.isEmpty with
    | true =>
      have hnil : bytes tty.canon = [] := contents_of_isEmpty hcanon hempty
      exact ⟨tty.input, tty.canon, rfl, hin, hcanon, hnil, hdone hnil⟩
    | false =>
      obtain ⟨ch, hch, hcons⟩ := pop_spec hcanon hempty
      have hpop : ttyRingPop tty.canon = (some ch, (tty.canon.pop ttyBufSize).2) := Prod.ext hch rfl
      change bytes tty.canon = ch :: bytes (tty.canon.pop ttyBufSize).2 at hcons
      rw [if_neg Bool.false_ne_true, hpop]
      simp only
      generalize hnext : ({ tty with input := ttyRingPush ch tty.input, canon := _ } : Tty) = next
      have hnin : next.input = tty.input.push ttyBufSize ch := by rw [← hnext]; rfl
      have hncanon : next.canon = (tty.canon.pop ttyBufSize).2 := by rw [← hnext]
      have hwin : next.input.WellFormed ttyBufSize := hnin ▸ hin.push
      have hbytes : bytes next.input = (bytes tty.input ++ [ch]).take (ttyBufSize - 1) := by
        rw [hnin, bytes, contents_push hin]
        rfl
      obtain ⟨input, canon, hmove, hwf, hwf', hnil, hall⟩ := ih hwin (hncanon ▸ hcanon.pop)
        (by rw [hcons, length_cons] at hfuel; rw [hncanon]; omega)
        fun hnil => by rw [hnil, append_nil, take_of_length_le (length_bytes_le hwin)]
      refine ⟨input, canon, by rw [hmove, ← hnext], hwf, hwf', hnil, ?_⟩
      rw [hall, hbytes, hncanon, take_append_take, hcons, append_assoc, singleton_append]

structure Edits (c : UInt8) (tty tty' : Tty) : Prop extends SameMode tty tty' where
  input : tty'.input.WellFormed ttyBufSize
  canon : tty'.canon.WellFormed ttyBufSize
  line : bytes tty'.canon = (Editor.key c ⟨bytes tty.canon, []⟩).line
  done : bytes tty'.input =
    (bytes tty.input ++ (Editor.key c ⟨bytes tty.canon, []⟩).done.flatten).take (ttyBufSize - 1)

theorem bytes_push (h : r.WellFormed ttyBufSize) (hroom : (bytes r).length ≤ ttyBufSize - 2) :
    bytes (ttyRingPush c r) = bytes r ++ [c] := by
  rw [ttyRingPush, bytes, contents_push h, take_of_length_le]
  · rfl
  · rw [length_append, length_singleton]
    change (bytes r).length + 1 ≤ _
    rw [ttyBufSize] at hroom ⊢
    omega

theorem editLine_spec (hcc : tty.cc = default) (hin : tty.input.WellFormed ttyBufSize)
    (hcanon : tty.canon.WellFormed ttyBufSize) (hroom : (bytes tty.canon).length ≤ ttyBufSize - 2)
    (heof : c ≠ default.eof) (hcr : c ≠ cr) : Edits c tty (editLine c tty) := by
  have hkeep : (bytes tty.input ++ List.flatten []).take (ttyBufSize - 1) = bytes tty.input := by
    rw [flatten_nil, append_nil, take_of_length_le (length_bytes_le hin)]
  rw [editLine, show tty.cc.erase = default.erase by rw [hcc], show tty.cc.kill = default.kill by rw [hcc],
    show tty.cc.eof = default.eof by rw [hcc]]
  by_cases herase : c = default.erase
  · have hkey : Editor.key c ⟨bytes tty.canon, []⟩ = ⟨(bytes tty.canon).dropLast, []⟩ := by
      rw [Editor.key, if_neg (by rw [herase]; decide), if_pos herase]
    rw [if_pos herase]
    cases hempty : tty.canon.isEmpty with
    | true =>
      rw [if_pos rfl]
      have hnil : bytes tty.canon = [] := contents_of_isEmpty hcanon hempty
      exact ⟨⟨rfl, rfl, rfl⟩, hin, hcanon, by rw [hkey, hnil]; rfl, by rw [hkey, hkeep]⟩
    | false =>
      rw [if_neg Bool.false_ne_true]
      obtain ⟨output, hecho⟩ := echo_eq [bs, sp, bs] { tty with canon := tty.canon.takeBack ttyBufSize }
      rw [hecho]
      exact ⟨⟨rfl, rfl, rfl⟩, hin, hcanon.takeBack, by rw [hkey]; exact contents_takeBack hcanon hempty,
        by rw [hkey, hkeep]⟩
  rw [if_neg herase]
  by_cases hkill : c = default.kill
  · have hkey : Editor.key c ⟨bytes tty.canon, []⟩ = ⟨[], []⟩ := by
      rw [Editor.key, if_neg (by rw [hkill]; decide), if_neg herase, if_pos hkill]
    rw [if_pos hkill]
    obtain ⟨output, hecho⟩ := echo_eq [cr, lf] { tty with canon := tty.canon.clear }
    obtain ⟨hwf, hnil⟩ := clear_spec (r := tty.canon) (show 0 < ttyBufSize by decide)
    rw [hecho]
    exact ⟨⟨rfl, rfl, rfl⟩, hin, hwf, by rw [hkey]; exact hnil, by rw [hkey, hkeep]⟩
  rw [if_neg hkill, if_neg heof]
  simp only
  obtain ⟨output, hecho⟩ := echo_eq (tty.cooked c) { tty with canon := ttyRingPush c tty.canon }
  have hpush := bytes_push (c := c) hcanon hroom
  rw [hecho]
  by_cases hlf : c = lf
  · have hkey : Editor.key c ⟨bytes tty.canon, []⟩ = ⟨[], [bytes tty.canon ++ [lf]]⟩ := by
      rw [Editor.key, if_pos (.inr hlf)]
      rfl
    rw [if_pos hlf]
    generalize hnext : ({ tty with canon := _, output := output } : Tty) = next
    have hnin : next.input = tty.input := by rw [← hnext]
    have hncanon : next.canon = ttyRingPush c tty.canon := by rw [← hnext]
    have hwf : next.canon.WellFormed ttyBufSize := hncanon ▸ hcanon.push
    have hfuel : (bytes next.canon).length ≤ ttyBufSize := (length_bytes_le hwf).trans (Nat.sub_le _ _)
    obtain ⟨input, canon, hmove, hwin, hwcanon, hnil, hall⟩ := moveLine_spec ttyBufSize (hnin ▸ hin) hwf hfuel
    rw [hmove, ← hnext]
    refine ⟨⟨rfl, rfl, rfl⟩, hwin, hwcanon, by rw [hkey]; exact hnil, ?_⟩
    rw [hkey, flatten_singleton]
    change bytes input = _
    rw [hall, hnin, hncanon, hpush, hlf]
  · have hkey : Editor.key c ⟨bytes tty.canon, []⟩ = ⟨bytes tty.canon ++ [c], []⟩ := by
      rw [Editor.key, if_neg (by simp [hcr, hlf]), if_neg herase, if_neg hkill]
    rw [if_neg hlf]
    exact ⟨⟨rfl, rfl, rfl⟩, hin, hcanon.push, by rw [hkey]; exact hpush, by rw [hkey, hkeep]⟩

theorem ttyInputChar_spec (h : Canonical tty) (hin : tty.input.WellFormed ttyBufSize)
    (hcanon : tty.canon.WellFormed ttyBufSize) (hroom : (bytes tty.canon).length ≤ ttyBufSize - 2) (hc : Plain c) :
    Edits c tty (ttyInputChar c tty).2 := by
  obtain ⟨-, heof, hintr, hquit, hsusp⟩ := hc
  have hnosig : ∀ b : UInt8, b ≠ default.intr → b ≠ default.quit → b ≠ default.susp →
      signalOf tty b = none := by
    intro b h1 h2 h3
    rw [signalOf, h.isig, h.cc, if_neg (by decide), if_neg h1, if_neg h2, if_neg h3]
  rw [ttyInputChar, h.valid, if_neg (by decide), h.icrnl, h.icanon]
  simp only [Bool.true_and, decide_eq_true_eq]
  by_cases hcr : c = cr
  · -- a carriage return edits as a line feed does
    rw [if_pos hcr, hnosig lf (by decide) (by decide) (by decide)]
    obtain ⟨hmode, hwin, hwcanon, hline, hdone⟩ := editLine_spec h.cc hin hcanon hroom (c := lf) (by decide) (by decide)
    have hkey : ∀ e : Editor, e.key c = e.key lf := by
      intro e
      rw [Editor.key, Editor.key, if_pos (.inl hcr), if_pos (.inr rfl)]
    exact ⟨hmode, hwin, hwcanon, by rw [hkey]; exact hline, by rw [hkey]; exact hdone⟩
  · rw [if_neg hcr, hnosig c hintr hquit hsusp]
    exact editLine_spec h.cc hin hcanon hroom heof hcr

def IsLine (l : List UInt8) : Prop := ∃ w, l = w ++ [lf] ∧ lf ∉ w

structure Takes (n : ℕ) (tty : Tty) (cs : List UInt8) (tty' : Tty) : Prop where
  rings : ∃ input, tty' = { tty with input := input } ∧ input.WellFormed ttyBufSize
  split : bytes tty.input = cs ++ bytes tty'.input
  line : lf ∉ cs.dropLast
  some : n ≠ 0 → tty.input.isEmpty = false → cs ≠ []

theorem readBytes_spec (n : ℕ) (hmode : tty.has ttyIcanon) (hin : tty.input.WellFormed ttyBufSize)
    (hmark : eofMark ∉ bytes tty.input) : Takes n tty (readBytes n tty).1 (readBytes n tty).2 := by
  induction n generalizing tty with
  | zero => exact ⟨⟨tty.input, rfl, hin⟩, rfl, not_mem_nil, fun h => absurd rfl h⟩
  | succ n ih =>
    rw [readBytes]
    cases hempty : tty.input.isEmpty with
    | true =>
      exact ⟨⟨tty.input, rfl, hin⟩, rfl, not_mem_nil, fun _ h => absurd (hempty.symm.trans h) (by decide)⟩
    | false =>
      obtain ⟨c, hc, hcons⟩ := pop_spec hin hempty
      have hpop : ttyRingPop tty.input = (some c, (tty.input.pop ttyBufSize).2) := Prod.ext hc rfl
      have hwf := hin.pop
      change bytes tty.input = c :: bytes (tty.input.pop ttyBufSize).2 at hcons
      rw [hcons, mem_cons, not_or] at hmark
      rw [if_neg Bool.false_ne_true, hpop]
      simp only
      rw [if_neg (Ne.symm hmark.1), hmode, Bool.and_true]
      split_ifs with hlf
      · exact ⟨⟨_, rfl, hwf⟩, hcons, not_mem_nil, fun _ _ => cons_ne_nil _ _⟩
      · have hlf : c ≠ lf := fun heq => hlf (decide_eq_true heq)
        obtain ⟨⟨input, hrest, hwf'⟩, hsplit, hline, -⟩ :=
          @ih { tty with input := (tty.input.pop ttyBufSize).2 } hmode hwf hmark.2
        refine ⟨⟨input, hrest, hwf'⟩, ?_, ?_, fun _ _ => cons_ne_nil _ _⟩
        · rw [hcons]
          exact congrArg (List.cons c) hsplit
        · simp only
          cases hcs : (readBytes n { tty with input := (tty.input.pop ttyBufSize).2 }).1 with
          | nil => exact not_mem_nil
          | cons d ds =>
            rw [hcs] at hline
            rw [dropLast_cons_of_ne_nil (cons_ne_nil d ds), mem_cons, not_or]
            exact ⟨hlf.symm, hline⟩

theorem within_line {lines : List (List UInt8)} {pre cs post : List UInt8} (hlines : ∀ l ∈ lines, IsLine l)
    (hcs : cs ≠ []) (hlf : lf ∉ cs.dropLast) (h : lines.flatten = pre ++ (cs ++ post)) :
    ∃ k before after, lines[k]? = some (before ++ cs ++ after) ∧ pre = (lines.take k).flatten ++ before := by
  induction lines generalizing pre with
  | nil =>
    have hnil : pre ++ (cs ++ post) = [] := h.symm
    simp only [append_eq_nil_iff] at hnil
    exact absurd hnil.2.1 hcs
  | cons l lines ih =>
    rw [flatten_cons, append_eq_append_iff] at h
    rcases h with ⟨pre', rfl, hrest⟩ | ⟨l', rfl, hrest⟩
    · obtain ⟨k, before, after, hk, rfl⟩ := ih (fun l hl => hlines l (mem_cons_of_mem _ hl)) hrest
      exact ⟨k + 1, before, after, hk, by rw [take_succ_cons, flatten_cons, append_assoc]⟩
    · rw [append_eq_append_iff] at hrest
      rcases hrest with ⟨after, rfl, -⟩ | ⟨cs', rfl, hrest⟩
      · exact ⟨0, pre, after, by rw [List.getElem?_cons_zero, append_assoc], rfl⟩
      · obtain ⟨w, hw, -⟩ := hlines _ mem_cons_self
        rcases eq_nil_or_concat l' with rfl | ⟨l', x, rfl⟩
        · obtain ⟨k, before, after, hk, hpre⟩ := @ih [] (fun l hl => hlines l (mem_cons_of_mem _ hl)) hrest
          rw [nil_append]
          exact ⟨k + 1, before, after, hk, by
            rw [take_succ_cons, flatten_cons, append_assoc, ← hpre, append_nil, append_nil]⟩
        · rw [concat_eq_append] at hw hlf hcs ⊢
          rw [← append_assoc] at hw
          obtain rfl : x = lf := singleton_inj.mp (append_inj' hw rfl).2
          rcases eq_nil_or_concat cs' with rfl | ⟨cs', y, rfl⟩
          · exact ⟨0, pre, [], by rw [List.getElem?_cons_zero, append_nil, append_nil], rfl⟩
          · -- the stretch goes on after the line, so it has the line feed of the line before its end
            rw [concat_eq_append, ← append_assoc, dropLast_concat] at hlf
            exact absurd (mem_append_left _ (mem_append_right _ mem_cons_self)) hlf

theorem WithinLines.append_read {lines reads : List (List UInt8)} {cs post : List UInt8} (h : WithinLines lines reads)
    (hlines : ∀ l ∈ lines, IsLine l) (hcs : cs ≠ []) (hlf : lf ∉ cs.dropLast)
    (hflat : lines.flatten = reads.flatten ++ (cs ++ post)) : WithinLines lines (reads ++ [cs]) := by
  intro i ds hi
  rcases Nat.lt_trichotomy i reads.length with hlt | rfl | hgt
  · rw [List.getElem?_append_left hlt] at hi
    rw [take_append_of_le_length hlt.le]
    exact h i ds hi
  · obtain rfl : cs = ds := by simpa using hi
    rw [take_left]
    exact within_line hlines hcs hlf hflat
  · rw [List.getElem?_eq_none (by rw [length_append, length_singleton]; omega)] at hi
    cases hi

theorem WithinLines.append_lines {lines more reads : List (List UInt8)} (h : WithinLines lines reads) :
    WithinLines (lines ++ more) reads := by
  intro i cs hi
  obtain ⟨k, before, after, hk, hpre⟩ := h i cs hi
  have hlt : k < lines.length := (List.getElem?_eq_some_iff.mp hk).1
  exact ⟨k, before, after, by rw [List.getElem?_append_left hlt, hk], by rw [take_append_of_le_length hlt.le, hpre]⟩

theorem Editor.key_done (e : Editor) :
    (e.key c).line = (Editor.key c ⟨e.line, []⟩).line ∧ (e.key c).done = e.done ++ (Editor.key c ⟨e.line, []⟩).done := by
  simp only [Editor.key]
  split_ifs <;> simp

theorem Editor.key_line {line : List UInt8} (hc : Plain c) (hlf : lf ∉ line) (hmark : eofMark ∉ line) :
    lf ∉ (Editor.key c ⟨line, []⟩).line ∧ eofMark ∉ (Editor.key c ⟨line, []⟩).line ∧
      (∀ l ∈ (Editor.key c ⟨line, []⟩).done, IsLine l) ∧ eofMark ∉ (Editor.key c ⟨line, []⟩).done.flatten := by
  rw [Editor.key]
  split_ifs with hend herase hkill
  · refine ⟨not_mem_nil, not_mem_nil, ?_, ?_⟩
    · intro l hl
      obtain rfl : l = line ++ [lf] := by simpa using hl
      exact ⟨line, rfl, hlf⟩
    · simp only [nil_append, flatten_singleton, mem_append, mem_singleton, not_or]
      exact ⟨hmark, by decide⟩
  · exact ⟨fun h => hlf (mem_of_mem_dropLast h), fun h => hmark (mem_of_mem_dropLast h), by simp, by simp⟩
  · exact ⟨not_mem_nil, not_mem_nil, by simp, by simp⟩
  · simp only [mem_append, mem_singleton, not_or]
    exact ⟨⟨hlf, fun h => hend (.inr h.symm)⟩, ⟨hmark, hc.1.symm⟩, by simp, by simp⟩

structure Follows (s : Session) (e : Editor) : Prop where
  mode : Canonical s.tty
  input : s.tty.input.WellFormed ttyBufSize
  canon : s.tty.canon.WellFormed ttyBufSize
  room : Roomy s
  line : bytes s.tty.canon = e.line
  noLf : lf ∉ e.line
  noMark : eofMark ∉ e.line
  lines : ∀ l ∈ e.done, IsLine l
  clean : eofMark ∉ e.done.flatten
  stream : s.reads.flatten ++ bytes s.tty.input = e.done.flatten
  within : WithinLines e.done s.reads

theorem follows_fresh (h : Fresh tty) : Follows ⟨tty, []⟩ .empty := by
  have hin : bytes tty.input = [] := contents_of_isEmpty h.input h.noInput
  have hcanon : bytes tty.canon = [] := contents_of_isEmpty h.canon h.noLine
  have hroom : Roomy ⟨tty, []⟩ := by
    refine ⟨by rw [hcanon]; exact Nat.zero_le _, Bool.eq_false_iff.mpr fun hfull => ?_⟩
    have hsize := (isFull_iff h.input).mp hfull
    rw [(isEmpty_iff h.input).mp h.noInput] at hsize
    exact absurd hsize (by decide)
  exact ⟨h.toCanonical, h.input, h.canon, hroom, hcanon, not_mem_nil, not_mem_nil, by simp [Editor.empty],
    by simp [Editor.empty], hin, fun i cs hi => by cases hi⟩

theorem Follows.key {s : Session} {e : Editor} (h : Follows s e) (hc : Plain c)
    (hroom : Roomy { s with tty := (ttyInputChar c s.tty).2 }) :
    Follows { s with tty := (ttyInputChar c s.tty).2 } (e.key c) := by
  obtain ⟨hmode, hin, hcanon, hline, hdone⟩ := ttyInputChar_spec h.mode h.input h.canon h.room.1 hc
  obtain ⟨hkl, hkd⟩ := e.key_done (c := c)
  obtain ⟨hlf, hmark, hlines, hclean⟩ := Editor.key_line hc h.noLf h.noMark
  rw [h.line] at hline hdone
  have hall : bytes (ttyInputChar c s.tty).2.input = bytes s.tty.input ++ (Editor.key c ⟨e.line, []⟩).done.flatten := by
    -- the ring is not full, so nothing was cut off
    have hnotFull : (bytes (ttyInputChar c s.tty).2.input).length + 1 ≠ ttyBufSize := by
      intro hlast
      rw [bytes, length_contents] at hlast
      exact Bool.eq_false_iff.mp hroom.2 ((isFull_iff hin).mpr hlast)
    have hle := length_bytes_le hin
    rw [hdone, length_take] at hnotFull
    rw [hdone, take_of_length_le]
    rw [ttyBufSize] at hnotFull ⊢
    omega
  refine ⟨h.mode.of_sameMode hmode, hin, hcanon, hroom, hline.trans hkl.symm, hkl ▸ hlf, hkl ▸ hmark, ?_, ?_, ?_, ?_⟩
  · rw [hkd]
    intro l hl
    exact (mem_append.mp hl).elim (h.lines l) (hlines l)
  · rw [hkd, flatten_append, mem_append, not_or]
    exact ⟨h.clean, hclean⟩
  · rw [hall, hkd, flatten_append, ← h.stream, append_assoc]
  · rw [hkd]
    exact h.within.append_lines

theorem Follows.read {s s' : Session} {e : Editor} {buf : Bool} {n : ℕ} (h : Follows s e)
    (hexec : s.exec (.read buf n) = some s') (hroom : Roomy s') : Follows s' e := by
  rw [Session.exec, ttyRead] at hexec
  split at hexec
  · cases hexec
  rename_i ret cs tty' hread
  split_ifs at hread with hbad hempty
  · obtain ⟨rfl, rfl, rfl⟩ : (-1 : ℤ) = ret ∧ [] = cs ∧ s.tty = tty' := by simpa using hread
    obtain rfl := some.inj hexec
    exact h
  · simp only [some.injEq, Prod.mk.injEq] at hread
    obtain ⟨rfl, rfl, rfl⟩ := hread
    rw [if_neg (by omega)] at hexec
    obtain rfl := some.inj hexec
    have hmark : eofMark ∉ bytes s.tty.input := by
      intro hmem
      exact h.clean (h.stream ▸ mem_append_right _ hmem)
    obtain ⟨⟨input, hrings, hwf⟩, hsplit, hline, hsome⟩ := readBytes_spec n h.mode.icanon h.input hmark
    have hnonempty := hsome (fun hn => hbad (.inr hn)) (Bool.eq_false_iff.mpr hempty)
    have hstream := h.stream
    rw [hsplit] at hstream
    have hinput : (readBytes n s.tty).2.input = input := by rw [hrings]
    have hcanon : (readBytes n s.tty).2.canon = s.tty.canon := by rw [hrings]
    have hmode : SameMode s.tty (readBytes n s.tty).2 := by
      rw [hrings]
      exact ⟨rfl, rfl, rfl⟩
    refine ⟨h.mode.of_sameMode hmode, hinput ▸ hwf, hcanon ▸ h.canon, hroom, hcanon ▸ h.line, h.noLf, h.noMark, h.lines,
      h.clean, ?_, h.within.append_read h.lines hnonempty hline hstream.symm⟩
    rw [flatten_append, flatten_singleton, append_assoc]
    exact hstream

theorem Follows.step {s s' : Session} {e : Editor} {c : TtyCall} (h : Follows s e) (hstep : Step s c s') :
    Follows s' (e.exec c) := by
  obtain ⟨hplain, hexec, hroom⟩ := hstep
  cases c with
  | key c =>
    obtain rfl := some.inj hexec
    exact h.key (hplain c rfl) hroom
  | read buf n => exact h.read hexec hroom
  | write buf bytes =>
    obtain rfl := some.inj hexec
    have hw : ∃ output, (ttyWrite buf bytes s.tty).2 = { s.tty with output := output } := by
      rw [ttyWrite]
      split
      · exact ⟨s.tty.output, rfl⟩
      · exact ⟨_, rfl⟩
    obtain ⟨output, hw⟩ := hw
    rw [hw] at hroom ⊢
    exact ⟨h.mode.of_sameMode ⟨rfl, rfl, rfl⟩, h.input, h.canon, hroom, h.line, h.noLf, h.noMark, h.lines, h.clean,
      h.stream, h.within⟩

/-- What was read, followed by what is still in the input, is what the line editor has completed, and every read is a
part of one line. -/
theorem line_editing (tty : Tty) (hfresh : Fresh tty) (calls : List TtyCall) (s : Session)
    (h : Run Step ⟨tty, []⟩ calls s) :
    s.reads.flatten ++ bytes s.tty.input = (calls.foldl Editor.exec .empty).done.flatten ∧
      WithinLines (calls.foldl Editor.exec .empty).done s.reads := by
  have hfollows := h.simulation (fun _ _ _ _ hf hstep => hf.step hstep) (follows_fresh hfresh)
  exact ⟨hfollows.stream, hfollows.within⟩

def atLast : Tty where
  valid := true
  flags := ttyEcho ||| ttyIcanon ||| ttyIsig ||| ttyOnlcr ||| ttyIcrnl
  cc := .default
  input := ⟨fun _ => 0, 4095, 4095⟩
  canon := ⟨fun _ => 0, 4095, 4095⟩
  output := ⟨fun _ => 0, 0, 0⟩
  fgPgid := 1

instance : DecidablePred Plain := fun _ => inferInstanceAs (Decidable (_ ∧ _))

instance : DecidablePred Roomy := fun _ => inferInstanceAs (Decidable (_ ∧ _))

def Session.tryExec (s : Session) (c : TtyCall) : Option Session :=
  match c with
  | .key b => if Plain b then (s.exec (.key b)).filter (Roomy ·) else none
  | c => (s.exec c).filter (Roomy ·)

theorem step_of_tryExec {s s' : Session} {c : TtyCall} (h : s.tryExec c = some s') : Step s c s' := by
  have hroomy : ∀ c, (s.exec c).filter (Roomy ·) = some s' → s.exec c = some s' ∧ Roomy s' := by
    intro c hc
    obtain ⟨hexec, hroom⟩ := filter_eq_some_iff.mp hc
    exact ⟨hexec, of_decide_eq_true hroom⟩
  cases c with
  | key b =>
    rw [Session.tryExec] at h
    split at h
    · rename_i hplain
      obtain ⟨hexec, hroom⟩ := hroomy _ h
      exact ⟨fun c hc => TtyCall.key.inj hc ▸ hplain, hexec, hroom⟩
    · cases h
  | read buf n => exact ⟨fun c hc => (by cases hc), hroomy _ h⟩
  | write buf bytes => exact ⟨fun c hc => (by cases hc), hroomy _ h⟩

def typed : List TtyCall :=
  [.key 0x61, .key 0x62, .key 0x7F, .key 0x63, .key cr, .read true 2, .read true 8]

/-- The line is read in its two parts. -/
theorem line_editing_typed :
    ∃ s, Run Step ⟨atLast, []⟩ typed s ∧ s.reads = [[0x61, 0x63], [lf]] ∧
      s.reads.flatten ++ bytes s.tty.input = (typed.foldl Editor.exec .empty).done.flatten := by
  have hsome : ((typed.foldlM Session.tryExec ⟨atLast, []⟩).map Session.reads) = some [[0x61, 0x63], [lf]] := by
    decide +kernel
  obtain ⟨s, hs, hreads⟩ := map_eq_some_iff.mp hsome
  have hrun : Run Step ⟨atLast, []⟩ typed s := Run.of_foldlM (fun _ _ _ => step_of_tryExec) hs
  exact ⟨s, hrun, hreads, (line_editing atLast ⟨⟨rfl, rfl, rfl, rfl, rfl⟩, ⟨by decide, by decide⟩,
    ⟨by decide, by decide⟩, rfl, rfl⟩ typed s hrun).1⟩

end AetherOs.Terminal
