import ModuleBuild.Text.Lines
import ModuleBuild.Text.Quoted

/-!
# Reading UTF-8

Bytes that are valid UTF-8 are the text they encode. For all others the first fault is located: where
it starts, how many bytes belong to it, and why they are no character.

A file may be read whole (`decode`) or piece by piece (`readLines`). Read piece by piece, the lines
that were complete before the faulty piece are still delivered, and the fault's position counts from
the first byte that was left over when that piece was read.
-/

namespace ModuleBuild.Text.Utf8

/-- Why bytes are no character. -/
inductive Reason where
  | invalidStart
  | invalidContinuation
  | unexpectedEnd
  deriving DecidableEq, Repr

/-- A reason in words. -/
def Reason.text : Reason → String
  | .invalidStart => "invalid start byte"
  | .invalidContinuation => "invalid continuation byte"
  | .unexpectedEnd => "unexpected end of data"

/-- A place where bytes stop being UTF-8. -/
structure Fault where
  /-- How many bytes stand before the fault. -/
  position : Nat
  /-- How many bytes belong to it. -/
  length : Nat
  /-- The first of these. -/
  byte : UInt8
  reason : Reason
  deriving DecidableEq, Repr

/-- A fault in words; a single byte is named, several are counted. -/
def Fault.message (f : Fault) : String :=
  let what :=
    if f.length = 1 then
      "byte 0x" ++ .ofList (hexDigits 2 f.byte.toNat) ++ " in position " ++ toString f.position
    else
      "bytes in position " ++ toString f.position ++ "-" ++ toString (f.position + f.length - 1)
  "'utf-8' codec can't decode " ++ what ++ ": " ++ f.reason.text

/-- What the first bytes of a nonempty sequence are. -/
inductive Head where
  /-- A character of so many bytes. -/
  | char (size : Nat)
  /-- The beginning of a character whose other bytes are missing. -/
  | cut
  /-- So many bytes that begin no character. -/
  | bad (reason : Reason) (length : Nat)
  deriving DecidableEq, Repr

/-- A byte that continues a character. -/
def isContinuation (b : UInt8) : Bool := 0x80 ≤ b && b < 0xC0

/-- The second byte is one that may follow the first in a character of three or four bytes: it gives
no overlong form, no surrogate and nothing beyond the last code point. -/
def isSecond (first second : UInt8) : Bool :=
  isContinuation second && !(first == 0xE0 && second < 0xA0) && !(first == 0xED && 0xA0 ≤ second) &&
    !(first == 0xF0 && second < 0x90) && !(first == 0xF4 && 0x90 ≤ second)

/-- Classify the first bytes, `first` and those of `rest`. -/
def head (first : UInt8) (rest : List UInt8) : Head :=
  if first < 0x80 then .char 1
  else if first < 0xC2 then .bad .invalidStart 1
  else if first < 0xE0 then
    match rest with
    | [] => .cut
    | b :: _ => if isContinuation b then .char 2 else .bad .invalidContinuation 1
  else if first < 0xF5 then
    match rest with
    | [] => .cut
    | b :: rest =>
      if !isSecond first b then .bad .invalidContinuation 1
      else
        match rest with
        | [] => .cut
        | b :: rest =>
          if !isContinuation b then .bad .invalidContinuation 2
          else if first < 0xF0 then .char 3
          else
            match rest with
            | [] => .cut
            | b :: _ => if isContinuation b then .char 4 else .bad .invalidContinuation 3
  else .bad .invalidStart 1

/-- The bytes are the first two of a surrogate's three, with the third still to come. -/
def isHalfSurrogate : List UInt8 → Bool
  | [a, b] => a == 0xED && isContinuation b
  | _ => false

/-- How many bytes of a piece are whole characters, after `skip` bytes of a character already seen
and `position` bytes in all. Unless the piece is `final`, a character may be cut at its end. -/
def scan (final : Bool) : (skip position : Nat) → List UInt8 → Except Fault Nat
  | _, position, [] => .ok position
  | skip + 1, position, _ :: bs => scan final skip (position + 1) bs
  | 0, position, b :: bs =>
    match head b bs with
    | .char size => scan final (size - 1) (position + 1) bs
    | .cut =>
      if final then .error ⟨position, bs.length + 1, b, .unexpectedEnd⟩ else .ok position
    | .bad reason length =>
      if !final && isHalfSurrogate (b :: bs) then .ok position
      else .error ⟨position, length, b, reason⟩

/-- The first fault of bytes that are not UTF-8. -/
def firstFault (bytes : List UInt8) : Fault :=
  match scan true 0 0 bytes with
  | .error f => f
  | .ok n => ⟨n, 1, 0, .unexpectedEnd⟩

/-- The text that bytes encode. -/
def decode (bytes : ByteArray) : Except Fault String :=
  if h : bytes.IsValidUTF8 then .ok (String.fromUTF8 bytes h)
  else .error (firstFault bytes.toList)

/-- The text of a file, its line ends made uniform. -/
def readText (bytes : ByteArray) : Except Fault String :=
  (decode bytes).map fun s ↦ .ofList (normalizeNewlines s.toList)

/-- How many bytes a piece has. -/
def pieceSize : Nat := 8192

/-- The characters of bytes that are whole characters. -/
def characters (bytes : List UInt8) : List Char :=
  ((String.fromUTF8? ⟨bytes.toArray⟩).getD "").toList

/-- The text before the piece that holds the first fault, and that fault. Here `pending` is left over
from the pieces before, `text` is what these say, and `rest` is unread. -/
def readPieces (pending : List UInt8) (text : List Char) :
    (rest : List UInt8) → List Char × Option Fault
  | [] =>
    match scan true 0 0 pending with
    | .error f => (text, some f)
    | .ok n => (text ++ characters (pending.take n), none)
  | b :: bs =>
    let piece := pending ++ (b :: bs).take pieceSize
    match scan false 0 0 piece with
    | .error f => (text, some f)
    | .ok n =>
      readPieces (piece.drop n) (text ++ characters (piece.take n)) ((b :: bs).drop pieceSize)
termination_by rest => rest.length
decreasing_by simp only [List.length_drop, List.length_cons, pieceSize]; omega

/-- The lines of a text that are known to be complete: those that end in a line feed. A carriage
return at the very end does not complete its line, for a line feed may follow. -/
def completeLines (text : List Char) : List (List Char) :=
  let text := if text.getLast? = some '\r' then text.dropLast else text
  (lines (normalizeNewlines text)).filter fun l ↦ l.getLast? = some '\n'

/-- The lines of a file, with line ends made uniform and kept, and the fault that ended the reading
early. -/
def readLines (bytes : ByteArray) : List (List Char) × Option Fault :=
  match decode bytes with
  | .ok s => (lines (normalizeNewlines s.toList), none)
  | .error f =>
    match readPieces [] [] bytes.toList with
    | (text, some f) => (completeLines text, some f)
    | (text, none) => (completeLines text, some f)

/-- What a text encodes to reads back as the text. -/
@[simp] theorem decode_toUTF8 (s : String) : decode s.toUTF8 = .ok s := by
  have h : s.toUTF8.IsValidUTF8 := s.isValidUTF8
  simp only [decode, h, dite_true]
  rfl

end ModuleBuild.Text.Utf8
