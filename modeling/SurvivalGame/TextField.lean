import SurvivalGame.Pocket
import SurvivalGame.Loops
import SurvivalGame.Utf8
import Mathlib.Data.Rat.Floor

/-! # The text field: `CursorTextField`

The field keeps what has been typed (`m_pInputText`) and shows as much of its end
as fits the frame.  The window onto the text is kept by hand: the characters'
byte lengths in `codeNumType`, of which there are `codeCur`; the character
`startCur` with which the shown part begins; the number `nLenCount` of bytes
before it; and `inpuText`, a copy of what is shown.  Inserting moves the window to
the right until the text fits, deleting moves it to the left.

Texts are byte strings.  The width of the label is a function of the string last
given to `setString`; that function, the frame's width and the character limit
are the settings of a field and stay as they are in a run.  `endCur` is only ever
set to 0 and is left out.

A call that does not return ends in a `Stop`: one of the ways to leave an array or
a string, or a loop that has used up its `fuel`.
-/
namespace SurvivalGame
open Loops Utf8

/-- The ways in which a call does not return. -/
inductive Stop
  /-- `strcpy` writes behind `t`. -/
  | strcpy
  /-- `utf8_to_unicode` reads behind `t`. -/
  | overread
  /-- `codeNumType` is written outside its elements. -/
  | codeWrite
  /-- `codeNumType` is read outside its elements. -/
  | codeRead
  /-- `substr` is given a start beyond the end, and throws. -/
  | substr
  /-- `resize` is given a size that has wrapped, and throws. -/
  | resize
  /-- A `while` loop has not ended in as many iterations as it was allowed. -/
  | fuel
deriving DecidableEq

/-- `getContentSize().width` as a function of the label's string, and the values of
`setInputWidth` and `setInputMaxLength`. -/
structure FieldSettings (α : Type*) where
  width : List CChar → α
  inputFrameWidth : α
  inputMaxLength : ℚ

/-- `getContentSize().width > inputFrameWidth`. -/
def FieldSettings.tooWide {α : Type*} [LinearOrder α] (S : FieldSettings α)
    (s : List CChar) : Bool :=
  decide (S.inputFrameWidth < S.width s)

/-- The fields of `CursorTextField`, and the argument of its last `setString`. -/
structure TextField where
  nLenCount : Int
  codeNumType : Vector Int 50
  codeCur : Int
  startCur : Int
  pInputText : List CChar
  inpuText : List CChar
  shown : List CChar
deriving DecidableEq

/-! ## Strings and arrays -/

/-- `s.c_str()`, as far as it is read. -/
def cStr (s : List CChar) : List CChar := s.takeWhile (· ≠ 0)

theorem cStr_of_nul_free {s : List CChar} (h : 0 ∉ s) : cStr s = s :=
  takeWhile_eq_self_of_nul_free h

theorem zero_not_mem_cStr (s : List CChar) : 0 ∉ cStr s := by
  intro h
  simpa using List.mem_takeWhile_imp h

/-- `strcpy(t, s)` into a zeroed `char t[200]`. -/
def strcpy (s : List CChar) : Except Stop (List CChar) :=
  if s.length < 200 then .ok (s ++ List.replicate (200 - s.length) 0) else .error .strcpy

/-- `s.substr(start, s.size() - start)`. -/
def substr (s : List CChar) (start : Int) : Except Stop (List CChar) :=
  if 0 ≤ start ∧ start ≤ s.length then .ok (s.drop start.toNat) else .error .substr

/-- `codeNumType[i] = v`. -/
def writeCode (codes : Vector Int 50) (i v : Int) : Except Stop (Vector Int 50) :=
  if h : 0 ≤ i ∧ i < 50 then .ok (codes.set i.toNat v (by omega)) else .error .codeWrite

/-- `codeNumType[i]`. -/
def readCode (codes : Vector Int 50) (i : Int) : Except Stop Int :=
  if h : 0 ≤ i ∧ i < 50 then .ok (codes.get ⟨i.toNat, by omega⟩) else .error .codeRead

/-- `MyCharSet::utf8_to_unicode`, with `skip` bytes of a character still to be
read: the number of characters it counts before the first NUL.  The bytes behind
a first byte are not looked at, and a first byte of four is not counted. -/
def utf8ToUnicode : Nat → List CChar → Except Stop Nat
  | _, [] => .error .overread
  | skip + 1, _ :: p => utf8ToUnicode skip p
  | 0, b :: p =>
    if b = 0 then .ok 0
    else if b.toNat ≤ 0x7f then (· + 1) <$> utf8ToUnicode 0 p
    else if b &&& 0xe0 = 0xc0 then (· + 1) <$> utf8ToUnicode 1 p
    else if b &&& 0xf0 = 0xe0 then (· + 1) <$> utf8ToUnicode 2 p
    else utf8ToUnicode 0 p

/-- `cou`: the number of characters in `m_pInputText`. -/
def characterCount (pInputText : List CChar) : Except Stop Nat := do
  let t ← strcpy (cStr pInputText)
  utf8ToUnicode 0 t

/-- `CursorTextField::split_text` with `len` 1, which it does not use. -/
def splitText (name : List CChar) (start : Nat) : List CChar :=
  if (name.getD start 0).toInt < 0 then (name.drop start).take 3 else (name.drop start).take 1

/-- The strings `ss` that the loop of `onTextFieldInsertText` cuts off `mytext`, one
after another (`units_eq`). -/
def units : List CChar → List (List CChar)
  | [] => []
  | [b] => [[b]]
  | [b, x] => if b.toInt < 0 then [[b, x]] else [[b], [x]]
  | b :: x :: y :: rest =>
    if b.toInt < 0 then [b, x, y] :: units rest else [b] :: units (x :: y :: rest)

/-- `nnLen` of the two `while` loops: 1 and 3 are taken from `codeNumType`, for
anything else it is the length of what is inserted or deleted. -/
def nnLen (code : Int) (len : Nat) : Int := if code = 1 then 1 else if code = 3 then 3 else len

namespace TextField

/-! ## The operations -/

/-- `init`. -/
def init : TextField := ⟨0, Vector.replicate 50 0, 0, 0, [], [], []⟩

/-- `setString`. -/
def setString (f : TextField) (s : List CChar) : TextField := { f with shown := s }

/-- An iteration of the `while` loop of `onTextFieldInsertText`. -/
def slideRight (ss : List CChar) (f : TextField) : Except Stop TextField := do
  let code ← readCode f.codeNumType f.startCur
  let text ← substr f.pInputText (f.nLenCount + nnLen code ss.length)
  .ok { f with
    startCur := f.startCur + 1
    nLenCount := f.nLenCount + nnLen code ss.length
    inpuText := text
    shown := cStr text }

/-- An iteration of the `while` loop of `onTextFieldDeleteBackward`. -/
def slideLeft (nLen : Nat) (f : TextField) : Except Stop TextField := do
  let code ← readCode f.codeNumType (f.startCur - 1)
  let text ← substr f.pInputText (max 0 (f.nLenCount - nnLen code nLen))
  .ok { f with
    startCur := max 0 (f.startCur - 1)
    nLenCount := max 0 (f.nLenCount - nnLen code nLen)
    inpuText := text
    shown := text }

section Operations
variable {α : Type*} [LinearOrder α] (S : FieldSettings α) (fuel : Nat)

/-- The part of `onTextFieldInsertText` that appends the string `ss`. -/
def appendUnit (f : TextField) (ss : List CChar) : Except Stop TextField := do
  let codes ← writeCode f.codeNumType f.codeCur ss.length
  let f : TextField := { f with
    pInputText := f.pInputText ++ ss
    inpuText := f.inpuText ++ ss
    codeNumType := codes
    codeCur := f.codeCur + 1 }
  let f := f.setString f.pInputText
  if S.tooWide f.shown then
    whileM (fun f => S.tooWide f.shown) (slideRight ss) .fuel fuel (f.setString f.inpuText)
  else .ok (({ f with nLenCount := 0, startCur := 0 } : TextField).setString f.pInputText)

/-- The `for` loop of `onTextFieldInsertText`. -/
def insertUnits : TextField → List (List CChar) → Except Stop TextField
  | f, [] => .ok f
  | f, ss :: rest => do
    let cou ← characterCount f.pInputText
    if S.inputMaxLength ≤ cou then .ok f
    else if ss = [newline] then insertUnits f rest
    else do
      let f ← appendUnit S fuel f ss
      insertUnits f rest

/-- `onTextFieldInsertText`. -/
def onTextFieldInsertText (f : TextField) (text : List CChar) : Except Stop TextField :=
  insertUnits S fuel f (units (cStr text))

/-- `onTextFieldDeleteBackward`. -/
def onTextFieldDeleteBackward (f : TextField) (nLen : Nat) : Except Stop TextField :=
  -- the size wraps when more is taken off than there is
  if f.pInputText.length < nLen then .error .resize
  else do
    let codes ← writeCode f.codeNumType f.codeCur 0
    let f : TextField := { f with
      pInputText := f.pInputText.take (f.pInputText.length - nLen)
      codeNumType := codes
      codeCur := f.codeCur - 1 }
    let f := f.setString f.pInputText
    if S.tooWide f.shown then
      whileM (fun f => S.tooWide f.shown) (slideLeft nLen) .fuel fuel f
    else .ok (({ f with nLenCount := 0, startCur := 0 } : TextField).setString (cStr f.pInputText))

end Operations

/-- `setInpuntText`: `nLenCount` keeps its value. -/
def setInpuntText (f : TextField) (text : List CChar) : TextField :=
  { f with
    pInputText := []
    shown := cStr text
    codeNumType := Vector.replicate 50 0
    codeCur := 0
    startCur := 0
    inpuText := [] }

/-- `openIME`. -/
def openIME (f : TextField) : TextField := f.setString f.pInputText

/-- `closeIME`, which sets no string. -/
def closeIME (f : TextField) : TextField := f

end TextField

/-- A call on the field, with its text as characters. -/
inductive FieldAct
  | insert (text : List Char)
  | delete
  | openIME
  | closeIME
  | setInpuntText (text : List Char)
deriving DecidableEq

namespace TextField

/-- One call that returns.  The base class calls `onTextFieldDeleteBackward` with
the length of the last character shown, and only if there is one. -/
def step {α : Type*} [LinearOrder α] (S : FieldSettings α) (fuel : Nat) (f : TextField) :
    FieldAct → Option TextField
  | .insert text => (f.onTextFieldInsertText S fuel (encode text)).toOption
  | .delete => (lastLength f.shown).bind fun nLen =>
      (f.onTextFieldDeleteBackward S fuel nLen).toOption
  | .openIME => some f.openIME
  | .closeIME => some f.closeIME
  | .setInpuntText text => some (f.setInpuntText (encode text))

end TextField

end SurvivalGame
