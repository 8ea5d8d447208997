/-!
# Bytes and characters

Reading text from bytes never fails: every byte that does not belong to a well-formed UTF-8 sequence
becomes the replacement character.
-/

namespace Sequencer.Text

abbrev Bytes := List UInt8

/-- The character that stands for an undecodable byte. -/
def replacement : Char := Char.ofNat 0xfffd

/-- A byte inside a multi-byte sequence. -/
def isContinuation (b : UInt8) : Bool := 0x80 ≤ b && b ≤ 0xbf

/-- The six payload bits of a continuation byte. -/
def payload (b : UInt8) : Nat := b.toNat % 0x40

/-- The character that starts at the lead byte `b` followed by `rest`, with the number of bytes
it takes from `rest`. The second byte of a three- or four-byte sequence has a narrower range after
some lead bytes, which rules out overlong forms, surrogates and values past the last code point. -/
def leading (b : UInt8) (rest : Bytes) : Char × Nat :=
  if b < 0x80 then (Char.ofNat b.toNat, 0)
  else
    match rest with
    | c₁ :: rest₁ =>
      if 0xc2 ≤ b && b ≤ 0xdf then
        if isContinuation c₁ then (Char.ofNat (b.toNat % 0x20 * 0x40 + payload c₁), 1)
        else (replacement, 0)
      else
        match rest₁ with
        | c₂ :: rest₂ =>
          if 0xe0 ≤ b && b ≤ 0xef then
            let low : UInt8 := if b = 0xe0 then 0xa0 else 0x80
            let high : UInt8 := if b = 0xed then 0x9f else 0xbf
            if low ≤ c₁ && c₁ ≤ high && isContinuation c₂ then
              (Char.ofNat (b.toNat % 0x10 * 0x1000 + payload c₁ * 0x40 + payload c₂), 2)
            else (replacement, 0)
          else
            match rest₂ with
            | c₃ :: _ =>
              let low : UInt8 := if b = 0xf0 then 0x90 else 0x80
              let high : UInt8 := if b = 0xf4 then 0x8f else 0xbf
              if 0xf0 ≤ b && b ≤ 0xf4 && low ≤ c₁ && c₁ ≤ high && isContinuation c₂
                  && isContinuation c₃ then
                (Char.ofNat (b.toNat % 0x08 * 0x40000 + payload c₁ * 0x1000 + payload c₂ * 0x40
                  + payload c₃), 3)
              else (replacement, 0)
            | [] => (replacement, 0)
        | [] => (replacement, 0)
    | [] => (replacement, 0)

def decode (bytes : Bytes) : List Char :=
  match bytes with
  | [] => []
  | b :: rest => (leading b rest).1 :: decode (rest.drop (leading b rest).2)
termination_by bytes.length
decreasing_by simp only [List.length_drop, List.length_cons]; omega

def encode (s : String) : Bytes := s.toUTF8.data.toList

end Sequencer.Text
