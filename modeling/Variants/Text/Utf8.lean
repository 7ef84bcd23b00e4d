import Variants.Text.Hex
import Variants.Text.Numeral

/-!
# Decoding UTF-8

Bytes are read one after the other. A lead byte says how many bytes follow it and in which range
each of them lies, so that no character has two encodings, and neither a surrogate nor anything
above U+10FFFF has one. The first byte that does not fit ends the decoding with a `Fault`, which
names the bytes of the sequence read so far.
-/

namespace Variants.Utf8

/-! ## 1. Sequences -/

/-- A sequence of bytes that is being read: where it starts, its lead byte, the value of the bits
read so far and the ranges of the bytes to come. -/
structure Sequence where
  start : Nat
  lead : Nat
  value : Nat
  next : List (Nat × Nat)
  deriving DecidableEq, Repr

/-- The range of a byte that continues a sequence. -/
def continuation : Nat × Nat := (0x80, 0xBF)

/-- The sequence that a lead byte of two or more bytes starts. -/
def Sequence.ofLead? (start lead : Nat) : Option Sequence :=
  if lead < 0xC2 then none
  else if lead < 0xE0 then some ⟨start, lead, lead - 0xC0, [continuation]⟩
  else if lead < 0xF0 then
    let second := if lead = 0xE0 then (0xA0, 0xBF) else if lead = 0xED then (0x80, 0x9F)
      else continuation
    some ⟨start, lead, lead - 0xE0, [second, continuation]⟩
  else if lead < 0xF5 then
    let second := if lead = 0xF0 then (0x90, 0xBF) else if lead = 0xF4 then (0x80, 0x8F)
      else continuation
    some ⟨start, lead, lead - 0xF0, [second, continuation, continuation]⟩
  else none

/-! ## 2. Faults -/

/-- Why bytes are not UTF-8. -/
inductive Reason where
  | invalidStart
  | invalidContinuation
  | endOfData
  deriving DecidableEq, Repr

/-- The first fault in some bytes: the offending bytes run from the place `start`, where the byte
`lead` stands, up to `stop`, which is not among them. -/
structure Fault where
  lead : Nat
  start : Nat
  stop : Nat
  reason : Reason
  deriving DecidableEq, Repr

/-- The words for a reason. -/
def Reason.text : Reason → Text
  | .invalidStart => "invalid start byte".toList
  | .invalidContinuation => "invalid continuation byte".toList
  | .endOfData => "unexpected end of data".toList

/-- The message of a fault. -/
def Fault.message (fault : Fault) : Text :=
  let place :=
    if fault.start + 1 = fault.stop then
      "byte 0x".toList ++ Text.hex 2 fault.lead ++ " in position ".toList ++ Text.ofNat fault.start
    else
      "bytes in position ".toList ++ Text.ofNat fault.start ++ ['-'] ++
        Text.ofNat (fault.stop - 1)
  "'utf-8' codec can't decode ".toList ++ place ++ [':', ' '] ++ fault.reason.text

/-! ## 3. Decoding -/

/-- Decodes the bytes from a place on, inside a sequence or between two. -/
def decodeFrom (place : Nat) : Option Sequence → List UInt8 → Except Fault Text
  | none, [] => .ok []
  | some s, [] => .error ⟨s.lead, s.start, place, .endOfData⟩
  | none, byte :: bytes =>
    let lead := byte.toNat
    if lead < 0x80 then (decodeFrom (place + 1) none bytes).map (Char.ofNat lead :: ·)
    else
      match Sequence.ofLead? place lead with
      | none => .error ⟨lead, place, place + 1, .invalidStart⟩
      | some s => decodeFrom (place + 1) (some s) bytes
  | some s, byte :: bytes =>
    match s.next with
    | [] => .error ⟨s.lead, s.start, place, .invalidContinuation⟩
    | range :: ranges =>
      if range.1 ≤ byte.toNat ∧ byte.toNat ≤ range.2 then
        let value := s.value * 0x40 + (byte.toNat - 0x80)
        match ranges with
        | [] => (decodeFrom (place + 1) none bytes).map (Char.ofNat value :: ·)
        | _ :: _ => decodeFrom (place + 1) (some ⟨s.start, s.lead, value, ranges⟩) bytes
      else .error ⟨s.lead, s.start, place, .invalidContinuation⟩

/-- The text that some bytes encode. -/
def decode (bytes : List UInt8) : Except Fault Text := decodeFrom 0 none bytes

end Variants.Utf8
