import AetherOs.Signal.Model

/-! # Terminals -/

namespace AetherOs.Terminal

open Base Signal

def ttyBufSize : ℕ := 4096

def ttyEcho : BitVec 32 := 0x01

def ttyIcanon : BitVec 32 := 0x02

def ttyIsig : BitVec 32 := 0x04

def ttyOnlcr : BitVec 32 := 0x08

def ttyIcrnl : BitVec 32 := 0x10

structure TtyCc where
  intr : UInt8
  quit : UInt8
  erase : UInt8
  kill : UInt8
  eof : UInt8
  susp : UInt8
  deriving DecidableEq

def TtyCc.default : TtyCc where
  intr := 0x03
  quit := 0x1C
  erase := 0x7F
  kill := 0x15
  eof := 0x04
  susp := 0x1A

structure Tty where
  valid : Bool
  flags : BitVec 32
  cc : TtyCc
  input : GapRing UInt8
  canon : GapRing UInt8
  output : GapRing UInt8
  fgPgid : ℕ

def bs : UInt8 := 0x08
def lf : UInt8 := 0x0A
def cr : UInt8 := 0x0D
def sp : UInt8 := 0x20

def eofMark : UInt8 := 0xFF

def Tty.has (flag : BitVec 32) (tty : Tty) : Bool := tty.flags &&& flag ≠ 0

def ttyRingPush (c : UInt8) (r : GapRing UInt8) : GapRing UInt8 := r.push ttyBufSize c

def ttyRingPop (r : GapRing UInt8) : Option UInt8 × GapRing UInt8 := r.pop ttyBufSize

def Tty.emit (cs : List UInt8) (tty : Tty) : Tty := { tty with output := cs.foldl (fun r c => ttyRingPush c r) tty.output }

def Tty.echo (cs : List UInt8) (tty : Tty) : Tty := if tty.has ttyEcho then tty.emit cs else tty

def Tty.cooked (tty : Tty) (c : UInt8) : List UInt8 := if tty.has ttyOnlcr && c = lf then [cr, c] else [c]

def moveLine : ℕ → Tty → Tty
  | 0, tty => tty
  | fuel + 1, tty =>
    if tty.canon.isEmpty then tty
    else
      match ttyRingPop tty.canon with
      | (none, canon) => moveLine fuel { tty with canon := canon }
      | (some ch, canon) => moveLine fuel { tty with canon := canon, input := ttyRingPush ch tty.input }

def signalOf (tty : Tty) (c : UInt8) : Option ℕ :=
  if tty.has ttyIsig = false then none
  else if c = tty.cc.intr then some sigint
  else if c = tty.cc.quit then some sigquit
  else if c = tty.cc.susp then some sigtstp
  else none

def editLine (c : UInt8) (tty : Tty) : Tty :=
  if c = tty.cc.erase then
    if tty.canon.isEmpty then tty else { tty with canon := tty.canon.takeBack ttyBufSize }.echo [bs, sp, bs]
  else if c = tty.cc.kill then { tty with canon := tty.canon.clear }.echo [cr, lf]
  else if c = tty.cc.eof then { tty with input := ttyRingPush eofMark tty.input }
  else
    let tty := { tty with canon := ttyRingPush c tty.canon }.echo (tty.cooked c)
    if c = lf then moveLine ttyBufSize tty else tty

def ttyInputChar (c : UInt8) (tty : Tty) : Option (ℕ × ℕ) × Tty :=
  if tty.valid = false then (none, tty)
  else
    let c := if tty.has ttyIcrnl && c = cr then lf else c
    match signalOf tty c with
    | some sig => (some (tty.fgPgid, sig), tty)
    | none =>
      if tty.has ttyIcanon = false then (none, { tty with input := ttyRingPush c tty.input }.echo [c])
      else (none, editLine c tty)

def readBytes : ℕ → Tty → List UInt8 × Tty
  | 0, tty => ([], tty)
  | n + 1, tty =>
    if tty.input.isEmpty then ([], tty)
    else
      match ttyRingPop tty.input with
      | (none, _) => ([], tty)
      | (some c, input) =>
        if c = eofMark then ([], { tty with input := input })
        else if c = lf && tty.has ttyIcanon then ([c], { tty with input := input })
        else
          let (cs, tty) := readBytes n { tty with input := input }
          (c :: cs, tty)

def ttyRead (buf : Bool) (n : ℕ) (tty : Tty) : Option (ℤ × List UInt8 × Tty) :=
  if buf = false ∨ n = 0 then some (-1, [], tty)
  else if tty.input.isEmpty then none
  else
    let (cs, tty) := readBytes n tty
    some (cs.length, cs, tty)

def ttyWrite (buf : Bool) (bytes : List UInt8) (tty : Tty) : ℤ × Tty :=
  if buf = false then (-1, tty) else (bytes.length, tty.emit (bytes.flatMap tty.cooked))

end AetherOs.Terminal
