import Sequencer.Digest.Sha3
import Sequencer.Verilog.Module

/-!
# Stamps

A generated module carries the digest of everything it was made from. The parts of what is hashed
are framed: each comes after its length.
-/

namespace Sequencer.Digest

open Text

def lengthBytes (n : Nat) : Bytes :=
  (List.range 8).map fun i => UInt8.ofNat (n >>> (8 * (7 - i)))

/-- Each part after its length. -/
def frame (parts : List Bytes) : Bytes := parts.flatMap fun p => lengthBytes p.length ++ p

/-- Two hexadecimal digits for each byte. -/
def hex (bytes : Bytes) : String :=
  String.ofList (bytes.flatMap fun b => [hexDigit (b.toNat / 16), hexDigit (b.toNat % 16)])

def digest (parts : List Bytes) : String := hex (sha3 (frame parts))

/-! ### Reading -/

/-- A line was too long to be read. -/
inductive StampError where
  | tooLong
deriving DecidableEq, Repr, Inhabited

def StampError.message : StampError → String
  | tooLong => "bufio.Scanner: token too long"

/-- The longest line that is read is one byte shorter. -/
def lineLimit : Nat := 65536

def stampLines : Nat := 4

/-- A line without the carriage return at its end. -/
def dropReturn (line : Bytes) : Bytes :=
  if line.getLast? = some 0x0d then line.dropLast else line

/-- What follows the mark in a line that starts with it. -/
def stampOf? (line : Bytes) : Option Bytes :=
  let mark := encode Verilog.digestMark
  if mark.isPrefixOf line then some (line.drop mark.length) else none

def readLines : (n : Nat) → Bytes → Except StampError String
  | 0, _ => .ok ""
  | n + 1, bytes =>
    if bytes.isEmpty then .ok ""
    else
      let line := bytes.takeWhile (· ≠ 0x0a)
      if lineLimit ≤ line.length then .error .tooLong
      else
        match stampOf? (dropReturn line) with
        | some d => .ok (String.ofList (trim (decode d)))
        | none => readLines n (bytes.drop (line.length + 1))

def readStamp (bytes : Bytes) : Except StampError String := readLines stampLines bytes

end Sequencer.Digest
