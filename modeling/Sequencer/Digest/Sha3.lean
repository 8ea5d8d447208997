import Sequencer.Text.Utf8

/-!
# SHA3-256

The input is padded to whole blocks of 136 bytes, which are added to the state one after another,
with a permutation after each. The first 32 bytes of the last state are the hash.
-/

namespace Sequencer.Digest

open Text

/-! ### The permutation -/

/-- A state of 25 lanes, row after row. -/
abbrev Lanes := Vector UInt64 25

def Lanes.zero : Lanes := Vector.replicate 25 0

/-- The lane in column `x` of row `y`; both wrap around. -/
def Lanes.at (s : Lanes) (x y : Nat) : UInt64 :=
  s.get ⟨5 * (y % 5) + x % 5, by omega⟩

def Lanes.tabulate (f : (x y : Nat) → UInt64) : Lanes :=
  Vector.ofFn fun i => f (i.val % 5) (i.val / 5)

def rotateLeft (w : UInt64) (n : Nat) : UInt64 :=
  if n % 64 = 0 then w else w <<< UInt64.ofNat (n % 64) ||| w >>> UInt64.ofNat (64 - n % 64)

/-- How far each lane is rotated, row after row. -/
def rotations : Vector Nat 25 :=
  #v[0, 1, 62, 28, 27, 36, 44, 6, 55, 20, 3, 10, 43, 25, 39, 41, 45, 15, 21, 8, 18, 2, 61, 56, 14]

def roundConstants : List UInt64 :=
  [0x0000000000000001, 0x0000000000008082, 0x800000000000808a, 0x8000000080008000,
    0x000000000000808b, 0x0000000080000001, 0x8000000080008081, 0x8000000000008009,
    0x000000000000008a, 0x0000000000000088, 0x0000000080008009, 0x000000008000000a,
    0x000000008000808b, 0x800000000000008b, 0x8000000000008089, 0x8000000000008003,
    0x8000000000008002, 0x8000000000000080, 0x000000000000800a, 0x800000008000000a,
    0x8000000080008081, 0x8000000000008080, 0x0000000080000001, 0x8000000080008008]

def Lanes.columns (s : Lanes) : Vector UInt64 5 :=
  Vector.ofFn fun x => s.at x 0 ^^^ s.at x 1 ^^^ s.at x 2 ^^^ s.at x 3 ^^^ s.at x 4

/-- Add to each lane the sums of two neighbouring columns. -/
def Lanes.mixColumns (s : Lanes) : Lanes :=
  let sums := s.columns
  let sum (x : Nat) : UInt64 := sums.get ⟨x % 5, by omega⟩
  .tabulate fun x y => s.at x y ^^^ sum (x + 4) ^^^ rotateLeft (sum (x + 1)) 1

def Lanes.rotateAndMove (s : Lanes) : Lanes :=
  let rotated (x y : Nat) : UInt64 :=
    rotateLeft (s.at x y) (rotations.get ⟨5 * (y % 5) + x % 5, by omega⟩)
  .tabulate fun x y => rotated (x + 3 * y) x

/-- Combine each lane with the next two in its row. -/
def Lanes.combineRows (s : Lanes) : Lanes :=
  .tabulate fun x y => s.at x y ^^^ (~~~ s.at (x + 1) y &&& s.at (x + 2) y)

def Lanes.round (s : Lanes) (constant : UInt64) : Lanes :=
  let s := s.mixColumns.rotateAndMove.combineRows
  s.set 0 (s.at 0 0 ^^^ constant)

def Lanes.permute (s : Lanes) : Lanes := roundConstants.foldl Lanes.round s

/-! ### Hashing -/

/-- The bytes of a block. -/
def rate : Nat := 136

/-- The bytes that fill up the last block of an input of length `n`: a mark at the start, a mark at
the end, and both in one byte if there is no room for two. -/
def padding (n : Nat) : Bytes :=
  let room := rate - n % rate
  if room = 1 then [0x86] else 0x06 :: (List.replicate (room - 2) 0 ++ [0x80])

/-- The word of the first eight bytes, lowest byte first. -/
def wordOfBytes (bytes : Bytes) : UInt64 :=
  (bytes.take 8).foldr (fun b w => w <<< 8 ||| b.toUInt64) 0

def bytesOfWord (w : UInt64) : Bytes :=
  (List.range 8).map fun i => (w >>> UInt64.ofNat (8 * i)).toUInt8

def addBlock (s : Lanes) (block : Bytes) : Lanes :=
  Vector.ofFn fun i => s.get i ^^^ wordOfBytes (block.drop (8 * i.val))

/-- Take in the blocks of a padded input. -/
def absorb (s : Lanes) (bytes : Bytes) : Lanes :=
  if bytes.isEmpty then s
  else absorb (addBlock s (bytes.take rate)).permute (bytes.drop rate)
termination_by bytes.length
decreasing_by
  rename_i h
  have : 0 < bytes.length := by
    cases bytes with
    | nil => simp at h
    | cons _ _ => simp
  simp only [List.length_drop, rate]
  omega

def sha3 (bytes : Bytes) : Bytes :=
  let s := absorb .zero (bytes ++ padding bytes.length)
  (s.toList.flatMap bytesOfWord).take 32

end Sequencer.Digest
