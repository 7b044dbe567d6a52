import AetherOs.Base.Loop
import Mathlib.Algebra.Group.Nat.Defs
import Mathlib.Algebra.Group.Int.Defs

/-! # Formatted printing -/

namespace AetherOs.Printf

open Base

abbrev Text := List Char

abbrev Args := List (BitVec 64)

def nul : Char := Char.ofNat 0

def peek (s : Text) : Char := s.headD nul

def intWrap (x : ℤ) : ℤ := x.bmod (2 ^ 32)

def sizeT (n : ℤ) : ℕ := (n % 2 ^ 64).toNat

/-! ## Numbers -/

structure Radix where
  val : ℕ
  two_le : 2 ≤ val

def digit (upper : Bool) (d : ℕ) : Char :=
  (if upper then ['0', '1', '2', '3', '4', '5', '6', '7', '8', '9', 'A', 'B', 'C', 'D', 'E', 'F']
    else ['0', '1', '2', '3', '4', '5', '6', '7', '8', '9', 'a', 'b', 'c', 'd', 'e', 'f']).getD d nul

def digitsLoop (base : Radix) (upper : Bool) (value : ℕ) (tmp : Text) : Text :=
  if 0 < value then digitsLoop base upper (value / base.val) (digit upper (value % base.val) :: tmp) else tmp
termination_by value
decreasing_by exact Nat.div_lt_self ‹_› base.two_le

def uintToStr (value : ℕ) (base : Radix) (upper : Bool) : Text :=
  if value = 0 then ['0'] else digitsLoop base upper value []

/-! ## Directives -/

structure Flags where
  left : Bool
  zero : Bool
  plus : Bool
  space : Bool
  hash : Bool
deriving DecidableEq

inductive Length
  | int
  | long
  | longLong
  | short
  | char
deriving DecidableEq

structure Directive where
  flags : Flags
  width : ℤ
  precision : ℤ
  length : Length
  spec : Char
deriving DecidableEq

def parseFlags (f : Flags) : Text → Flags × Text
  | '-' :: fmt => parseFlags { f with left := true } fmt
  | '0' :: fmt => parseFlags { f with zero := true } fmt
  | '+' :: fmt => parseFlags { f with plus := true } fmt
  | ' ' :: fmt => parseFlags { f with space := true } fmt
  | '#' :: fmt => parseFlags { f with hash := true } fmt
  | fmt => (f, fmt)

def parseNumber (value : ℤ) : Text → ℤ × Text
  | [] => (value, [])
  | c :: fmt =>
    if '0' ≤ c ∧ c ≤ '9' then parseNumber (intWrap (value * 10 + (c.toNat - '0'.toNat))) fmt else (value, c :: fmt)

def vaInt (ap : Args) : ℤ := ((ap.headD 0).setWidth 32).toInt

def parseWidth (f : Flags) (fmt : Text) (ap : Args) : Flags × ℤ × Text × Args :=
  if peek fmt = '*' then
    let width := vaInt ap
    if width < 0 then ({ f with left := true }, intWrap (-width), fmt.tail, ap.tail)
    else (f, width, fmt.tail, ap.tail)
  else
    let (width, fmt) := parseNumber 0 fmt
    (f, width, fmt, ap)

def parsePrecision (fmt : Text) (ap : Args) : ℤ × Text × Args :=
  if peek fmt = '.' then
    let fmt := fmt.tail
    if peek fmt = '*' then (vaInt ap, fmt.tail, ap.tail)
    else
      let (precision, fmt) := parseNumber 0 fmt
      (precision, fmt, ap)
  else (-1, fmt, ap)

def parseLength : Text → Length × Text
  | 'h' :: 'h' :: fmt => (.char, fmt)
  | 'h' :: fmt => (.short, fmt)
  | 'l' :: 'l' :: fmt => (.longLong, fmt)
  | 'l' :: fmt => (.long, fmt)
  | 'z' :: fmt => (.longLong, fmt)
  | fmt => (.int, fmt)

def parseDirective (fmt : Text) (ap : Args) : Directive × Text × Args :=
  let (flags, fmt) := parseFlags ⟨false, false, false, false, false⟩ fmt
  let (flags, width, fmt, ap) := parseWidth flags fmt ap
  let (precision, fmt, ap) := parsePrecision fmt ap
  let (length, fmt) := parseLength fmt
  (⟨flags, width, precision, length, peek fmt⟩, fmt.tail, ap)

/-! ## Conversions -/

inductive Field
  | body (prefixText strVal : Text) (strLen : ℤ)
  | plain (chars : Text)
  | stop

def numberField (prefixText : Text) (value : ℕ) (base : Radix) (upper : Bool) : Field :=
  let str := uintToStr value base upper
  .body prefixText str str.length

def vaSigned (d : Directive) (ap : Args) : ℤ :=
  match d.length with
  | .longLong | .long => (ap.headD 0).toInt
  | _ => vaInt ap

def vaUint (ap : Args) : ℕ := ((ap.headD 0).setWidth 32).toNat

def vaUnsigned (d : Directive) (ap : Args) : ℕ :=
  match d.length with
  | .longLong | .long => (ap.headD 0).toNat
  | _ => vaUint ap

variable (strings : BitVec 64 → Text)

def stringField (d : Directive) (addr : BitVec 64) : Field :=
  let strVal := if addr = 0 then ['(', 'n', 'u', 'l', 'l', ')'] else strings addr
  let strLen := intWrap strVal.length
  .body [] strVal (if 0 ≤ d.precision ∧ d.precision < strLen then d.precision else strLen)

def convert (d : Directive) (ap : Args) : Field × Args :=
  if d.spec = 'd' ∨ d.spec = 'i' then
    let val := vaSigned d ap
    let sign := if val < 0 then ['-'] else if d.flags.plus then ['+'] else if d.flags.space then [' '] else []
    (numberField sign val.natAbs ⟨10, by decide⟩ false, ap.tail)
  else if d.spec = 'u' then (numberField [] (vaUnsigned d ap) ⟨10, by decide⟩ false, ap.tail)
  else if d.spec = 'x' ∨ d.spec = 'X' then
    let val := vaUnsigned d ap
    let mark := if d.flags.hash ∧ val ≠ 0 then ['0', if d.spec = 'X' then 'X' else 'x'] else []
    (numberField mark val ⟨16, by decide⟩ (d.spec = 'X'), ap.tail)
  else if d.spec = 'o' then
    (numberField (if d.flags.hash then ['0'] else []) (vaUint ap) ⟨8, by decide⟩ false, ap.tail)
  else if d.spec = 'b' then (numberField [] (vaUint ap) ⟨2, by decide⟩ false, ap.tail)
  else if d.spec = 'p' then (numberField ['0', 'x'] (ap.headD 0).toNat ⟨16, by decide⟩ false, ap.tail)
  else if d.spec = 'c' then (.body [] [Char.ofNat ((ap.headD 0).setWidth 8).toNat] 1, ap.tail)
  else if d.spec = 's' then (stringField strings d (ap.headD 0), ap.tail)
  else if d.spec = '%' then (.plain ['%'], ap)
  else if d.spec = nul then (.stop, ap)
  else (.plain ['%', d.spec], ap)

/-! ## The buffer -/

def put (size : ℕ) (buf : Text) (c : Char) : Text := if buf.length + 1 < size then buf ++ [c] else buf

def puts (size : ℕ) (buf s : Text) (n : ℕ) : Text :=
  (List.range n).foldl (fun buf i => put size buf (s.getD i nul)) buf

def fill (size : ℕ) (buf : Text) (c : Char) (pad : ℤ) : Text := (List.replicate pad.toNat c).foldl (put size) buf

def padOf (d : Directive) (prefixText : Text) (strLen : ℤ) : ℤ :=
  let totalLen := intWrap (prefixText.length + strLen)
  if totalLen < d.width then intWrap (d.width - totalLen) else 0

def emit (size : ℕ) (d : Directive) (prefixText strVal : Text) (strLen : ℤ) (buf : Text) : Text :=
  let pad := padOf d prefixText strLen
  let (buf, prefixText) :=
    if d.flags.left then (buf, prefixText)
    else if d.flags.zero then (fill size (puts size buf prefixText prefixText.length) '0' pad, [])
    else (fill size buf ' ' pad, prefixText)
  let buf := puts size buf prefixText prefixText.length
  let buf := puts size buf strVal (sizeT strLen)
  if d.flags.left then fill size buf ' ' pad else buf

/-! ## The outer loop -/

structure State where
  fmt : Text
  ap : Args
  buf : Text

def step (size : ℕ) (s : State) : Text ⊕ State :=
  if peek s.fmt = nul then .inl s.buf
  else if peek s.fmt ≠ '%' then
    -- `PUT(*fmt++)` reads, and moves the pointer, only when the buffer has room
    if s.buf.length + 1 < size then .inr ⟨s.fmt.tail, s.ap, s.buf ++ [peek s.fmt]⟩ else .inr s
  else
    let (d, fmt, ap) := parseDirective s.fmt.tail s.ap
    match convert strings d ap with
    | (.body prefixText strVal strLen, ap) => .inr ⟨fmt, ap, emit size d prefixText strVal strLen s.buf⟩
    | (.plain chars, ap) => .inr ⟨fmt, ap, chars.foldl (put size) s.buf⟩
    | (.stop, _) => .inl s.buf

def finish (size : ℕ) (buf : Text) : Text × ℤ :=
  (if 0 < size then buf.take (if buf.length < size then buf.length else size - 1) ++ [nul] else buf,
    intWrap buf.length)

def vsnprintf (fuel size : ℕ) (fmt : Text) (ap : Args) : Option (Text × ℤ) :=
  (loop (step strings size) fuel ⟨fmt, ap, []⟩).map (finish size)

end AetherOs.Printf
