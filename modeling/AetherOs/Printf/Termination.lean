import AetherOs.Printf.Model
import Mathlib.Data.List.GetD
import Mathlib.Order.Nat

/-! # When the printer returns -/

namespace AetherOs.Printf

open Base List

inductive Piece
  | literal (c : Char)
  | converted (chars : Text)
deriving DecidableEq

def Piece.chars : Piece → Text
  | .literal c => [c]
  | .converted chars => chars

def printed (ps : List Piece) : Text := ps.flatMap Piece.chars

def render (d : Directive) (prefixText strVal : Text) (strLen : ℤ) : Text :=
  let pad := (padOf d prefixText strLen).toNat
  let str := (List.range (sizeT strLen)).map fun i => strVal.getD i nul
  if d.flags.left then prefixText ++ str ++ List.replicate pad ' '
  else if d.flags.zero then prefixText ++ List.replicate pad '0' ++ str
  else List.replicate pad ' ' ++ prefixText ++ str

variable (strings : BitVec 64 → Text)

def nextPiece (fmt : Text) (ap : Args) : Option (Piece × Text × Args) :=
  if peek fmt = nul then none
  else if peek fmt ≠ '%' then some (.literal (peek fmt), fmt.tail, ap)
  else
    let (d, fmt, ap) := parseDirective fmt.tail ap
    match convert strings d ap with
    | (.body prefixText strVal strLen, ap) => some (.converted (render d prefixText strVal strLen), fmt, ap)
    | (.plain chars, ap) => some (.converted chars, fmt, ap)
    | (.stop, _) => none

def piecesUpTo : ℕ → Text → Args → List Piece
  | 0, _, _ => []
  | n + 1, fmt, ap =>
    match nextPiece strings fmt ap with
    | none => []
    | some (p, fmt, ap) => p :: piecesUpTo n fmt ap

def pieces (fmt : Text) (ap : Args) : List Piece := piecesUpTo strings fmt.length fmt ap

def LiteralsFit (size : ℕ) (out : Text) (ps : List Piece) : Prop :=
  ∀ before c after, ps = before ++ .literal c :: after → (out ++ printed before).length + 1 < size

variable {strings} {fmt fmt' out : Text} {ap ap' : Args} {p : Piece} {ps : List Piece} {size n : ℕ}

/-! ## Directives shorten the format -/

theorem parseFlags_length_le (f : Flags) (fmt : Text) : (parseFlags f fmt).2.length ≤ fmt.length := by
  fun_induction parseFlags f fmt <;> simp only [length_cons] <;> omega

theorem parseNumber_length_le (value : ℤ) (fmt : Text) : (parseNumber value fmt).2.length ≤ fmt.length := by
  fun_induction parseNumber value fmt <;> simp only [length_cons] <;> omega

theorem parseWidth_length_le (f : Flags) (fmt : Text) (ap : Args) :
    (parseWidth f fmt ap).2.2.1.length ≤ fmt.length := by
  have htail : fmt.tail.length ≤ fmt.length := by simp
  simp only [parseWidth]
  split_ifs
  · exact htail
  · exact htail
  · exact parseNumber_length_le 0 fmt

theorem parsePrecision_length_le (fmt : Text) (ap : Args) : (parsePrecision fmt ap).2.1.length ≤ fmt.length := by
  have htail : fmt.tail.length ≤ fmt.length := by simp
  simp only [parsePrecision]
  split_ifs
  · exact (by simp : fmt.tail.tail.length ≤ fmt.tail.length).trans htail
  · exact (parseNumber_length_le 0 fmt.tail).trans htail
  · exact le_rfl

theorem parseLength_length_le (fmt : Text) : (parseLength fmt).2.length ≤ fmt.length := by
  fun_cases parseLength fmt <;> simp only [length_cons] <;> omega

theorem parseDirective_length_le (fmt : Text) (ap : Args) : (parseDirective fmt ap).2.1.length ≤ fmt.length := by
  simp only [parseDirective, length_tail]
  refine (Nat.sub_le _ _).trans ((parseLength_length_le _).trans ((parsePrecision_length_le _ _).trans ?_))
  exact (parseWidth_length_le _ _ _).trans (parseFlags_length_le _ _)

theorem length_tail_lt (h : peek fmt ≠ nul) : fmt.tail.length < fmt.length := by
  cases fmt with
  | nil => exact absurd rfl h
  | cons c fmt => simp

theorem nextPiece_shorter (h : nextPiece strings fmt ap = some (p, fmt', ap')) : fmt'.length < fmt.length := by
  unfold nextPiece at h
  split_ifs at h with hnul hlit
  · obtain ⟨-, rfl, -⟩ : _ ∧ fmt.tail = fmt' ∧ _ := by simpa using h
    exact length_tail_lt hnul
  · have hle := parseDirective_length_le fmt.tail ap
    have hlt := length_tail_lt hnul
    generalize parseDirective fmt.tail ap = parsed at h hle
    obtain ⟨d, fmt₁, ap₁⟩ := parsed
    simp only at h
    obtain rfl : fmt₁ = fmt' := by
      split at h <;> simp_all
    exact hle.trans_lt hlt

/-! ## The buffer holds what fits -/

theorem put_take (size : ℕ) (out : Text) (c : Char) :
    put size (out.take (size - 1)) c = (out ++ [c]).take (size - 1) := by
  rw [put, length_take]
  split_ifs with hroom
  · rw [take_of_length_le (by omega), take_of_length_le (by simp; omega)]
  · rw [take_append_of_le_length (by omega)]

theorem foldl_put_take (size : ℕ) (out s : Text) :
    s.foldl (put size) (out.take (size - 1)) = (out ++ s).take (size - 1) := by
  induction s generalizing out with
  | nil => simp
  | cons c s ih => rw [foldl_cons, put_take, ih, append_assoc, singleton_append]

theorem fill_take (size : ℕ) (out : Text) (c : Char) (pad : ℤ) :
    fill size (out.take (size - 1)) c pad = (out ++ List.replicate pad.toNat c).take (size - 1) :=
  foldl_put_take size out _

theorem puts_take (size : ℕ) (out s : Text) (n : ℕ) :
    puts size (out.take (size - 1)) s n = (out ++ (List.range n).map fun i => s.getD i nul).take (size - 1) := by
  rw [puts, ← foldl_put_take, foldl_map]

theorem map_getD_range (s : Text) : ((List.range s.length).map fun i => s.getD i nul) = s := by
  refine ext_getElem (by simp) fun i hi hi' => ?_
  rw [getElem_map, getElem_range, getD_eq_getElem _ _ hi']

theorem emit_take (size : ℕ) (d : Directive) (prefixText strVal : Text) (strLen : ℤ) (out : Text) :
    emit size d prefixText strVal strLen (out.take (size - 1)) =
      (out ++ render d prefixText strVal strLen).take (size - 1) := by
  simp only [emit, render]
  cases d.flags.left
  · cases d.flags.zero <;> simp [-getD_eq_getElem?_getD, puts_take, fill_take, map_getD_range]
  · simp [-getD_eq_getElem?_getD, puts_take, fill_take, map_getD_range]

/-! ## Rounds -/

theorem step_eq (strings : BitVec 64 → Text) (size : ℕ) (fmt out : Text) (ap : Args) :
    step strings size ⟨fmt, ap, out.take (size - 1)⟩ =
    match nextPiece strings fmt ap with
    | none => .inl (out.take (size - 1))
    | some (.literal c, fmt', ap') =>
      if out.length + 1 < size then .inr ⟨fmt', ap', (out ++ [c]).take (size - 1)⟩
      else .inr ⟨fmt, ap, out.take (size - 1)⟩
    | some (.converted chars, fmt', ap') => .inr ⟨fmt', ap', (out ++ chars).take (size - 1)⟩ := by
  simp only [step, nextPiece]
  by_cases hnul : peek fmt = nul
  · simp only [hnul, if_true]
  by_cases hlit : peek fmt = '%'
  · simp only [if_neg hnul, if_neg (not_not.mpr hlit)]
    obtain ⟨d, fmt₁, ap₁⟩ := parseDirective fmt.tail ap
    simp only
    obtain ⟨field, ap₂⟩ := convert strings d ap₁
    cases field <;> simp only [emit_take, foldl_put_take]
  · have hroom : (out.take (size - 1)).length + 1 < size ↔ out.length + 1 < size := by
      rw [length_take]
      omega
    simp only [if_neg hnul, if_pos hlit, hroom]
    split_ifs with hfit
    · rw [take_of_length_le (by omega), take_of_length_le (by simp; omega)]
    · rfl

/-! ## Whole runs -/

theorem literalsFit_cons : LiteralsFit size out (p :: ps) ↔
    (∀ c, p = .literal c → out.length + 1 < size) ∧ LiteralsFit size (out ++ p.chars) ps := by
  constructor
  · intro hfit
    refine ⟨fun c hc => ?_, fun before c after heq => ?_⟩
    · simpa [printed] using hfit [] c ps (by rw [hc, nil_append])
    · simpa [printed] using hfit (p :: before) c after (by rw [heq, cons_append])
  · rintro ⟨hhead, htail⟩ (_ | ⟨q, before⟩) c after heq
    · obtain ⟨rfl, -⟩ := List.cons.inj heq
      simpa [printed] using hhead c rfl
    · obtain ⟨rfl, hrest⟩ := List.cons.inj heq
      simpa [printed] using htail before c after hrest

theorem loop_of_literalsFit (hn : fmt.length ≤ n) (hfit : LiteralsFit size out (piecesUpTo strings n fmt ap)) :
    loop (step strings size) (n + 1) ⟨fmt, ap, out.take (size - 1)⟩ =
      some ((out ++ printed (piecesUpTo strings n fmt ap)).take (size - 1)) := by
  induction n generalizing fmt ap out with
  | zero =>
    obtain rfl := length_eq_zero_iff.mp (Nat.le_zero.mp hn)
    simp [loop, step, peek, piecesUpTo, printed]
  | succ n ih =>
    rw [piecesUpTo] at hfit ⊢
    have hstep := step_eq strings size fmt out ap
    cases hnext : nextPiece strings fmt ap with
    | none =>
      rw [hnext] at hstep
      simp [loop, hstep, printed]
    | some q =>
      obtain ⟨p, fmt', ap'⟩ := q
      have hlt := nextPiece_shorter hnext
      rw [hnext] at hstep hfit
      obtain ⟨hhead, htail⟩ := literalsFit_cons.mp hfit
      have hrest := ih (by omega) htail
      have hgo : step strings size ⟨fmt, ap, out.take (size - 1)⟩ =
          .inr ⟨fmt', ap', (out ++ p.chars).take (size - 1)⟩ := by
        cases p with
        | literal c => exact hstep.trans (if_pos (hhead c rfl))
        | converted chars => exact hstep
      rw [loop_next hgo, hrest, append_assoc]
      rfl

theorem loop_of_not_literalsFit (hn : fmt.length ≤ n) (hfit : ¬ LiteralsFit size out (piecesUpTo strings n fmt ap))
    (fuel : ℕ) : loop (step strings size) fuel ⟨fmt, ap, out.take (size - 1)⟩ = none := by
  induction n generalizing fmt ap out fuel with
  | zero => exact absurd (fun before c after heq => by simp [piecesUpTo] at heq) hfit
  | succ n ih =>
    rw [piecesUpTo] at hfit
    have hstep := step_eq strings size fmt out ap
    cases hnext : nextPiece strings fmt ap with
    | none =>
      rw [hnext] at hfit
      exact absurd (fun before c after heq => by simp at heq) hfit
    | some q =>
      obtain ⟨p, fmt', ap'⟩ := q
      have hlt := nextPiece_shorter hnext
      rw [hnext] at hstep hfit
      rw [literalsFit_cons, not_and_or] at hfit
      have hgo (hgo : step strings size ⟨fmt, ap, out.take (size - 1)⟩ =
          .inr ⟨fmt', ap', (out ++ p.chars).take (size - 1)⟩)
          (htail : ¬ LiteralsFit size (out ++ p.chars) (piecesUpTo strings n fmt' ap')) :
          loop (step strings size) fuel ⟨fmt, ap, out.take (size - 1)⟩ = none := by
        cases fuel with
        | zero => rfl
        | succ fuel => rw [loop_next hgo, ih (by omega) htail]
      cases p with
      | literal c =>
        by_cases hroom : out.length + 1 < size
        · exact hgo (hstep.trans (if_pos hroom)) (hfit.resolve_left fun hhead => hhead fun _ _ => hroom)
        · exact loop_stalled (hstep.trans (if_neg hroom)) fuel
      | converted chars => exact hgo hstep (hfit.resolve_left fun hhead => hhead fun _ hc => by cases hc)

theorem vsnprintf_eq (hfit : LiteralsFit size [] (pieces strings fmt ap)) :
    vsnprintf strings (fmt.length + 1) size fmt ap =
      some (finish size ((printed (pieces strings fmt ap)).take (size - 1))) := by
  have hloop := loop_of_literalsFit (le_refl fmt.length) hfit
  rw [take_nil] at hloop
  rw [vsnprintf, hloop]
  rfl

example : vsnprintf (fun _ => []) 3 8 ['%', '3', 'c', '!'] [65] = some ([' ', ' ', 'A', '!', nul], 4) := by decide

/-- The printer returns exactly when every plain character of the format is met with room in the buffer. -/
theorem vsnprintf_returns_iff (strings : BitVec 64 → Text) (size : ℕ) (fmt : Text) (ap : Args) :
    (∃ fuel result, vsnprintf strings fuel size fmt ap = some result) ↔
      LiteralsFit size [] (pieces strings fmt ap) := by
  constructor
  · rintro ⟨fuel, result, hok⟩
    by_contra hfit
    have hloop := loop_of_not_literalsFit (le_refl fmt.length) hfit fuel
    rw [take_nil] at hloop
    rw [vsnprintf, hloop] at hok
    cases hok
  · exact fun hfit => ⟨_, _, vsnprintf_eq hfit⟩

/-- Five letters are never printed into a buffer of four characters. -/
theorem exists_format_without_return : ∃ size fmt, ∀ strings fuel, vsnprintf strings fuel size fmt [] = none := by
  refine ⟨4, ['h', 'e', 'l', 'l', 'o'], fun strings fuel => ?_⟩
  have hpieces : piecesUpTo strings 5 ['h', 'e', 'l', 'l', 'o'] [] =
      [.literal 'h', .literal 'e', .literal 'l', .literal 'l', .literal 'o'] := rfl
  have hfit : ¬ LiteralsFit 4 [] (piecesUpTo strings 5 ['h', 'e', 'l', 'l', 'o'] []) := fun hfit =>
    absurd (hfit [.literal 'h', .literal 'e', .literal 'l'] 'l' [.literal 'o'] hpieces) (by decide)
  have hloop := loop_of_not_literalsFit (Nat.le_refl 5) hfit fuel
  rw [take_nil] at hloop
  rw [vsnprintf, hloop]
  rfl

end AetherOs.Printf
