import AetherOs.Net.Validation

/-! # DNS answers -/

namespace AetherOs.Net

section

variable (buf : ℕ → UInt8) (len : ℕ)

def isPointer (l : UInt8) : Bool := l &&& 0xC0 = 0xC0

def skipQname (pos : ℕ) : ℕ :=
  if pos < len then
    if buf pos = 0 then pos + 1
    else if isPointer (buf pos) then pos + 2
    else skipQname (pos + ((buf pos).toNat + 1))
  else pos
termination_by len - pos

def skipBytes (pos : ℕ) : ℕ := if pos < len ∧ buf pos ≠ 0 then skipBytes (pos + 1) else pos
termination_by len - pos

def skipName (pos : ℕ) : ℕ := if isPointer (buf pos) then pos + 2 else skipBytes buf len pos + 1

/-- The loop over the answers: how many are left, and the position. -/
def parseAnswers : ℕ → ℕ → ℕ
  | 0, _ => 0
  | n + 1, pos =>
    if pos + 12 ≤ len then
      let p := skipName buf len pos
      if len < p + 10 then 0
      else if ntohsAt buf p = 1 ∧ ntohsAt buf (p + 8) = 4 ∧ p + 14 ≤ len then
        ntohsAt buf (p + 10) * 65536 + ntohsAt buf (p + 12)
      else parseAnswers n (p + 10 + ntohsAt buf (p + 8))
    else 0

def parseResponse : ℕ :=
  if len < 12 then 0
  else if ntohsAt buf 6 = 0 then 0
  else parseAnswers buf len (ntohsAt buf 6) (skipQname buf len 12 + 4)

end

variable {buf buf' : ℕ → UInt8} {len : ℕ}

section

variable (h : AgreeBelow len buf buf')
include h

theorem skipQname_congr (pos : ℕ) : skipQname buf' len pos = skipQname buf len pos := by
  fun_induction skipQname buf len pos with
  | case1 pos hlt hzero => rw [skipQname, if_pos hlt, h pos hlt, if_pos hzero]
  | case2 pos hlt hzero hptr => rw [skipQname, if_pos hlt, h pos hlt, if_neg hzero, if_pos hptr]
  | case3 pos hlt hzero hptr ih => rw [skipQname, if_pos hlt, h pos hlt, if_neg hzero, if_neg hptr, ih]
  | case4 pos hlt => rw [skipQname, if_neg hlt]

theorem skipBytes_congr (pos : ℕ) : skipBytes buf' len pos = skipBytes buf len pos := by
  fun_induction skipBytes buf len pos with
  | case1 pos hmore ih => rw [skipBytes, h pos hmore.1, if_pos hmore, ih]
  | case2 pos hstop =>
    rw [skipBytes, if_neg]
    exact fun hmore => hstop (h pos hmore.1 ▸ hmore)

theorem parseAnswers_congr (n pos : ℕ) : parseAnswers buf' len n pos = parseAnswers buf len n pos := by
  induction n generalizing pos with
  | zero => rfl
  | succ n ih =>
    by_cases hlen : pos + 12 ≤ len
    · have hname : skipName buf' len pos = skipName buf len pos := by
        rw [skipName, skipName, h pos (by omega), skipBytes_congr h]
      simp only [parseAnswers, if_pos hlen, hname]
      by_cases hend : len < skipName buf len pos + 10
      · rw [if_pos hend, if_pos hend]
      · rw [if_neg hend, if_neg hend, ntohsAt_congr h (by omega), ntohsAt_congr h (by omega), ih]
        split_ifs with hfound
        · rw [ntohsAt_congr h (by omega), ntohsAt_congr h (by omega)]
        · rfl
    · simp only [parseAnswers, if_neg hlen]

end

/-- A name from one position to another: labels, and a pointer or the root. -/
inductive NameAt (buf : ℕ → UInt8) : ℕ → ℕ → Prop
  | root {p : ℕ} : buf p = 0 → NameAt buf p (p + 1)
  | pointer {p : ℕ} : isPointer (buf p) = true → NameAt buf p (p + 2)
  | label {p q : ℕ} : buf p ≠ 0 → (buf p).toNat < 64 → NameAt buf (p + ((buf p).toNat + 1)) q → NameAt buf p q

/-- Answers one after the other, each with the positions at which its name begins and ends. -/
inductive AnswersAt (buf : ℕ → UInt8) : ℕ → List (ℕ × ℕ) → ℕ → Prop
  | nil {p : ℕ} : AnswersAt buf p [] p
  | cons {p q e : ℕ} {as : List (ℕ × ℕ)} : NameAt buf p q → AnswersAt buf (q + 10 + ntohsAt buf (q + 8)) as e →
      AnswersAt buf p ((p, q) :: as) e

def WellFormed (buf : ℕ → UInt8) (len : ℕ) (as : List (ℕ × ℕ)) : Prop :=
  ntohsAt buf 6 = as.length ∧ ∃ q e, NameAt buf 12 q ∧ AnswersAt buf (q + 4) as e ∧ e ≤ len

/-- The address in the first record of type A with four bytes, 0 if there is none. -/
def firstAddress (buf : ℕ → UInt8) : List (ℕ × ℕ) → ℕ
  | [] => 0
  | (_, q) :: as => if ntohsAt buf q = 1 ∧ ntohsAt buf (q + 8) = 4 then
      ntohsAt buf (q + 10) * 65536 + ntohsAt buf (q + 12)
    else firstAddress buf as

/-- The name begins with a pointer, or its last byte is its first zero byte. -/
def Skippable (buf : ℕ → UInt8) (a : ℕ × ℕ) : Prop :=
  isPointer (buf a.1) = true ∨ buf (a.2 - 1) = 0 ∧ ∀ j, a.1 ≤ j → j < a.2 - 1 → buf j ≠ 0

variable {p q e : ℕ} {as : List (ℕ × ℕ)}

theorem not_isPointer_of_lt {l : UInt8} (h : l.toNat < 64) : isPointer l = false := by
  have hall : ∀ n < 64, isPointer (UInt8.ofNat n) = false := by decide
  simpa using hall l.toNat h

theorem NameAt.lt (h : NameAt buf p q) : p < q := by
  induction h with
  | root | pointer => omega
  | label _ _ _ ih => omega

theorem AnswersAt.le (h : AnswersAt buf p as e) : p ≤ e := by
  induction h with
  | nil => exact le_rfl
  | cons hname _ ih =>
    have := hname.lt
    omega

theorem NameAt.skipQname_eq (h : NameAt buf p q) (hq : q ≤ len) : skipQname buf len p = q := by
  induction h with
  | root hzero => rw [skipQname, if_pos (by omega), if_pos hzero]
  | @pointer p hptr =>
    have hne : buf p ≠ 0 := by
      intro hzero
      rw [hzero] at hptr
      cases hptr
    rw [skipQname, if_pos (by omega), if_neg hne, if_pos hptr]
  | label hne hlt hrest ih =>
    have := hrest.lt
    rw [skipQname, if_pos (by omega), if_neg hne, not_isPointer_of_lt hlt, if_neg Bool.false_ne_true, ih hq]

theorem skipBytes_eq (hpq : p ≤ q) (hzero : buf q = 0) (hall : ∀ j, p ≤ j → j < q → buf j ≠ 0) (hq : q < len) :
    skipBytes buf len p = q := by
  fun_induction skipBytes buf len p with
  | case1 p hmore ih =>
    have hne : p ≠ q := by
      rintro rfl
      exact hmore.2 hzero
    exact ih (by omega) fun j hj hjq => hall j (by omega) hjq
  | case2 p hstop =>
    by_contra hne
    exact hstop ⟨by omega, hall p le_rfl (by omega)⟩

theorem NameAt.skipName_eq (h : NameAt buf p q) (hskip : Skippable buf (p, q)) (hq : q ≤ len) :
    skipName buf len p = q := by
  have hpq := h.lt
  by_cases hptr : isPointer (buf p) = true
  · rw [skipName, if_pos hptr]
    cases h with
    | root hzero =>
      rw [hzero] at hptr
      cases hptr
    | pointer => rfl
    | label _ hlt =>
      rw [not_isPointer_of_lt hlt] at hptr
      cases hptr
  · obtain ⟨hzero, hall⟩ := hskip.resolve_left hptr
    rw [skipName, if_neg hptr, skipBytes_eq (by omega) hzero hall (by omega)]
    omega

theorem AnswersAt.firstAddress_short (h : AnswersAt buf p as e) (he : e < p + 12) : firstAddress buf as = 0 := by
  induction h with
  | nil => rfl
  | cons hname hrest ih =>
    have hpq := hname.lt
    have hle := hrest.le
    rw [firstAddress, if_neg (by omega), ih (by omega)]

theorem AnswersAt.parseAnswers_eq (h : AnswersAt buf p as e) (hskip : ∀ a ∈ as, Skippable buf a) (he : e ≤ len) :
    parseAnswers buf len as.length p = firstAddress buf as := by
  induction h with
  | nil => rfl
  | @cons p q e as hname hrest ih =>
    have hle := hrest.le
    by_cases hroom : p + 12 ≤ len
    · have hq := hname.skipName_eq (hskip (p, q) (by simp)) (show q ≤ len by omega)
      simp only [List.length_cons, parseAnswers, if_pos hroom, hq]
      rw [if_neg (by omega), firstAddress]
      by_cases hfound : ntohsAt buf q = 1 ∧ ntohsAt buf (q + 8) = 4
      · rw [if_pos hfound, if_pos ⟨hfound.1, hfound.2, by omega⟩]
      · rw [if_neg hfound, if_neg fun hbad => hfound ⟨hbad.1, hbad.2.1⟩]
        exact ih (fun a ha => hskip a (by simp [ha])) he
    · simp only [List.length_cons, parseAnswers, if_neg hroom]
      exact ((AnswersAt.cons hname hrest).firstAddress_short (by omega)).symm

/-- One answer, an address, with the given bytes as its name. -/
def oneAnswer (name : List UInt8) : ℕ → UInt8 := fun i =>
  ([0, 1, 0x81, 0x80, 0, 1, 0, 1, 0, 0, 0, 0, 1, 104, 0, 0, 1, 0, 1] ++ name ++
    [0, 1, 0, 1, 0, 0, 0, 60, 0, 4, 1, 2, 3, 4]).getD i 0

end AetherOs.Net
