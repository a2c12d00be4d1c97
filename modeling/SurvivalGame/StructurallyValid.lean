import SurvivalGame.CodedInput
import SurvivalGame.Utf8Automaton

/-! # Is it UTF-8? (`google/protobuf/stubs/structurally_valid.cc`)

The check that a string field is UTF-8: a table of nine states of 256 entries, each
the next state or a reason to stop, and in front of it loops that pass over ASCII
eight bytes at a time.  Where those loops begin depends on the address of the string,
so the address is an argument here, and what is to be shown is that it does not
matter.

A pointer into the string is the number of bytes in front of it; a pointer into the
table is its offset from `Tbl_0`.
-/
namespace SurvivalGame

/-! ## The tables -/

/-- `kExitIllegalStructure`, in the table `X__`. -/
def kExitIllegalStructure : Nat := 240

def kExitOK : Nat := 241

/-- `kExitReject`, in the table `RJ_`. -/
def kExitReject : Nat := 242

/-- `UTF8StateMachineObj`, as far as scanning reads it. -/
structure UTF8ScanObj where
  state0 : Nat
  state0Size : Nat
  entryShift : Nat
  losub : CUInt
  hiadd : CUInt
  stateTable : List Nat
  fastState : List Nat

/-- A stretch of equal entries. -/
abbrev entries (n entry : Nat) : List Nat := List.replicate n entry

/-- The rows of `utf8acceptnonsurrogates`, by the states that they are. -/
def utf8acceptnonsurrogatesRows : List (List Nat) :=
  let x := kExitIllegalStructure
  [ -- state[0] 0x000000 Byte 1
   entries 128 0 ++ entries 66 x ++ entries 30 1 ++ entries 1 2 ++ entries 12 3 ++
     entries 1 7 ++ entries 2 3 ++ entries 1 4 ++ entries 3 5 ++ entries 1 6 ++ entries 11 x,
   -- state[1] 0x000080 Byte 2 of 2
   entries 128 x ++ entries 64 0 ++ entries 64 x,
   -- state[2] 0x000000 Byte 2 of 3
   entries 160 x ++ entries 32 1 ++ entries 64 x,
   -- state[3] 0x001000 Byte 2 of 3
   entries 128 x ++ entries 64 1 ++ entries 64 x,
   -- state[4] 0x000000 Byte 2 of 4
   entries 144 x ++ entries 48 3 ++ entries 64 x,
   -- state[5] 0x040000 Byte 2 of 4
   entries 128 x ++ entries 64 3 ++ entries 64 x,
   -- state[6] 0x100000 Byte 2 of 4
   entries 128 x ++ entries 16 3 ++ entries 112 x,
   -- state[7] 0x00d000 Byte 2 of 3
   entries 128 x ++ entries 32 1 ++ entries 32 8 ++ entries 64 x,
   -- state[8] 0x00d800 Byte 3 of 3
   entries 128 x ++ entries 64 kExitReject ++ entries 64 x]

def utf8acceptnonsurrogates : List Nat := utf8acceptnonsurrogatesRows.flatten

def utf8acceptnonsurrogatesFast : List Nat := entries 128 0 ++ entries 128 1

def utf8acceptnonsurrogatesObj : UTF8ScanObj where
  state0 := 0
  state0Size := 256
  entryShift := 8
  losub := 0x20202020
  hiadd := 0x00000000
  stateTable := utf8acceptnonsurrogates
  fastState := utf8acceptnonsurrogatesFast

/-! ## Scanning -/

/-- `InStateZero`: `Tbl` is within the range of state 0. -/
def inStateZero (st : UTF8ScanObj) (tbl : Nat) : Prop := tbl % 2 ^ 32 < st.state0Size

instance (st : UTF8ScanObj) (tbl : Nat) : Decidable (inStateZero st tbl) :=
  inferInstanceAs (Decidable (_ < _))

/-- The entry of a byte in `fast_state`. -/
def UTF8ScanObj.fast (st : UTF8ScanObj) (b : CChar) : Nat := st.fastState.getD b.toNat 0

/-- Bytes one at a time, as long as they pass, until the address is a multiple of 8. -/
def untilAligned (passes : CChar → Bool) : Nat → List CChar → Nat
  | src, b :: str =>
    if src &&& 0x07 ≠ 0 ∧ passes b then untilAligned passes (src + 1) str + 1 else 0
  | _, [] => 0

/-- Four bytes, read as one `uint32` of a little-endian machine. -/
def loadWord (b0 b1 b2 b3 : CChar) : CUInt := readLittleEndian32FromArray [b0, b1, b2, b3]

/-- The loop for groups of 8 identity bytes. -/
def identityGroups (st : UTF8ScanObj) : List CChar → Nat
  | b0 :: b1 :: b2 :: b3 :: b4 :: b5 :: b6 :: b7 :: str =>
    let s0123 := loadWord b0 b1 b2 b3
    let s4567 := loadWord b4 b5 b6 b7
    let temp := (s0123 - st.losub) ||| (s0123 + st.hiadd) |||
      (s4567 - st.losub) ||| (s4567 + st.hiadd)
    if temp &&& 0x80808080 ≠ 0 then
      if st.fast b0 ||| st.fast b1 ||| (st.fast b2 ||| st.fast b3) ≠ 0 then 0
      else if st.fast b4 ||| st.fast b5 ||| (st.fast b6 ||| st.fast b7) ≠ 0 then 4
      else identityGroups st str + 8
    else identityGroups st str + 8
  | _ => 0

/-- The fast scan of `UTF8GenericScan`, of a string at the address `src`. -/
def identityBytes (st : UTF8ScanObj) (src : Nat) (str : List CChar) : Nat :=
  let n := untilAligned (fun b => st.fast b = 0) src str
  if (src + n) &&& 0x07 = 0 then n + identityGroups st (str.drop n) else n

/-- The byte-at-a-time scan: the bytes read, `Tbl` and `e` at its end. -/
def byteScan (st : UTF8ScanObj) : Nat → Nat → List CChar → Nat × Nat × Nat
  | tbl, e, [] => (0, tbl, e)
  | tbl, _, c :: str =>
    let e := st.stateTable.getD (st.state0 + tbl + c.toNat) 0
    if kExitIllegalStructure ≤ e then (1, tbl, e)
    else
      let (src, last) := byteScan st (e <<< st.entryShift) e str
      (src + 1, last)

/-- `do { src--; } while ((src > isrc) && ((src[0] & 0xc0) == 0x80))` -/
def backUp (str : List CChar) : Nat → Nat
  | 0 => 0
  | src + 1 => if 0 < src ∧ str.getD src 0 &&& 0xc0 = 0x80 then backUp str src else src

/-- The end of `UTF8GenericScan`: the reason and `*bytes_consumed`. -/
def scanExit (st : UTF8ScanObj) (str : List CChar) (src tbl e : Nat) : Nat × Nat :=
  if kExitIllegalStructure ≤ e then
    -- over the byte that was rejected, and over those it would have belonged to
    (e, if inStateZero st tbl then src - 1 else backUp str (src - 1))
  else if ¬ inStateZero st tbl then (kExitIllegalStructure, backUp str src)
  else (kExitOK, src)

/-- `UTF8GenericScan` of a string at an address. -/
def utf8GenericScan (st : UTF8ScanObj) (address : Nat) (str : List CChar) : Nat × Nat :=
  if str.length = 0 then (kExitOK, 0)
  else
    let start := identityBytes st address str
    let (n, tbl, e) := byteScan st 0 0 (str.drop start)
    scanExit st str (start + n) tbl e

/-- The loop of `UTF8GenericScanFastAscii` for groups of 8. -/
def asciiGroups : List CChar → Nat
  | b0 :: b1 :: b2 :: b3 :: b4 :: b5 :: b6 :: b7 :: str =>
    if (loadWord b0 b1 b2 b3 ||| loadWord b4 b5 b6 b7) &&& 0x80808080 = 0 then asciiGroups str + 8
    else 0
  | _ => 0

/-- The loop of `UTF8GenericScanFastAscii` for single bytes. -/
def asciiBytes : List CChar → Nat
  | b :: str => if b.toNat < 0x80 then asciiBytes str + 1 else 0
  | [] => 0

def utf8GenericScanFastAscii (st : UTF8ScanObj) (address : Nat) (str : List CChar) : Nat × Nat :=
  if str.length = 0 then (kExitOK, 0)
  else
    let aligned := untilAligned (fun b => b.toNat < 0x80) address str
    let groups := if (address + aligned) &&& 0x07 = 0 then asciiGroups (str.drop aligned) else 0
    let n := aligned + groups + asciiBytes (str.drop (aligned + groups))
    let (exitReason, restConsumed) := utf8GenericScan st (address + n) (str.drop n)
    (exitReason, n + restConsumed)

/-- `IsStructurallyValidUTF8`.  Before the static initialisation of its file has set
`module_initialized_` it takes every string. -/
def isStructurallyValidUTF8 (module_initialized : Bool) (address : Nat) (buf : List CChar) :
    Bool :=
  if !module_initialized then true
  else (utf8GenericScanFastAscii utf8acceptnonsurrogatesObj address buf).2 = buf.length

/-- `UTF8SpnStructurallyValid`, with the same exception. -/
def utf8SpnStructurallyValid (module_initialized : Bool) (address : Nat) (str : List CChar) : Nat :=
  if !module_initialized then str.length
  else (utf8GenericScanFastAscii utf8acceptnonsurrogatesObj address str).2

/-- The loop of `UTF8CoerceToStructurallyValid`: `src` points to a bogus byte or is off
the end. -/
def coerceLoop (module_initialized : Bool) (replaceChar : CChar) :
    Nat → Nat → List CChar → List CChar
  | _, _, [] => []
  | 0, _, _ :: _ => []
  | fuel + 1, address, _ :: str =>
    let n := utf8SpnStructurallyValid module_initialized (address + 1) str
    replaceChar :: str.take n ++
      coerceLoop module_initialized replaceChar fuel (address + 1 + n) (str.drop n)

/-- `UTF8CoerceToStructurallyValid`. -/
def utf8CoerceToStructurallyValid (module_initialized : Bool) (address : Nat)
    (srcStr : List CChar) (replaceChar : CChar) : List CChar :=
  let n := utf8SpnStructurallyValid module_initialized address srcStr
  if n = srcStr.length then srcStr
  else srcStr.take n ++
    coerceLoop module_initialized replaceChar srcStr.length (address + n) (srcStr.drop n)

end SurvivalGame
