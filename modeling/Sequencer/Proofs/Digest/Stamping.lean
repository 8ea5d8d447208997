import Mathlib.Algebra.Group.Nat.Defs
import Mathlib.Data.List.Basic
import Sequencer.Digest.Stamp

/-!
# Stamps that are read back

What is hashed determines the parts it was made of. A module is stamped with the digest in its
second line, and there it is found again, since nothing in 64 hexadecimal digits ends a line or is
trimmed.
-/

namespace Sequencer.Text

open List

/-! ### ASCII -/

theorem encode_eq_flatMap (s : String) : encode s = s.toList.flatMap String.utf8EncodeChar := by
  have hbytes : s.toByteArray = s.toList.utf8Encode := by
    rw [← String.toByteArray_ofList, String.ofList_toList]
  rw [encode, String.toUTF8, hbytes, List.utf8Encode, data_toByteArray]

theorem encode_append (s t : String) : encode (s ++ t) = encode s ++ encode t := by
  simp [encode_eq_flatMap]

theorem encode_ascii {s : String} (h : ∀ c ∈ s.toList, c.toNat < 128) :
    encode s = s.toList.map fun c => UInt8.ofNat c.toNat := by
  rw [encode_eq_flatMap, map_eq_flatMap]
  refine flatMap_congr fun c hc => ?_
  have hle : c.val.toNat ≤ 127 := Nat.le_of_lt_succ (h c hc)
  exact if_pos hle

theorem decode_ascii {bytes : Bytes} (h : ∀ b ∈ bytes, b < 0x80) :
    decode bytes = bytes.map fun b => Char.ofNat b.toNat := by
  induction bytes with
  | nil => simp [decode]
  | cons b rest ih =>
    rw [forall_mem_cons] at h
    have hleading : leading b rest = (Char.ofNat b.toNat, 0) := by simp [leading, h.1]
    rw [decode, hleading, drop_zero, ih h.2, map_cons]

theorem decode_encode_ascii {s : String} (h : ∀ c ∈ s.toList, c.toNat < 128) :
    decode (encode s) = s.toList := by
  have hbyte : ∀ c ∈ s.toList, (UInt8.ofNat c.toNat).toNat = c.toNat := fun c hc =>
    UInt8.toNat_ofNat_of_lt' (Nat.lt_trans (h c hc) (by decide))
  rw [encode_ascii h, decode_ascii, map_map]
  · refine (map_congr_left fun c hc => ?_).trans (map_id _)
    simp only [Function.comp_apply, hbyte c hc, Char.ofNat_toNat, id]
  · intro b hb
    obtain ⟨c, hc, rfl⟩ := mem_map.mp hb
    rw [UInt8.lt_iff_toNat_lt, hbyte c hc]
    exact h c hc

theorem trim_of_visible {cs : List Char} (h : ∀ c ∈ cs, isBlank c = false) : trim cs = cs := by
  have hkeep : ∀ cs : List Char, (∀ c ∈ cs, isBlank c = false) → cs.dropWhile isBlank = cs := by
    intro cs h
    cases cs with
    | nil => rfl
    | cons c cs => rw [dropWhile_cons_of_neg (by simp [h c mem_cons_self])]
  rw [trim, trimLeft, hkeep cs h, trimRight, hkeep cs.reverse (by simpa using h),
    reverse_reverse]

end Sequencer.Text

namespace Sequencer.Digest

open List
open Text

/-! ### Framed parts -/

theorem length_bytesOfWord (w : UInt64) : (bytesOfWord w).length = 8 := by
  simp [bytesOfWord]

theorem length_sha3 (bytes : Bytes) : (sha3 bytes).length = 32 := by
  simp only [sha3, length_take, length_flatMap, length_bytesOfWord, map_const',
    sum_replicate_nat, Vector.length_toList]
  decide

/-- A character of a digest: in ASCII, and neither blank nor the end of a line. -/
structure Solid (c : Char) : Prop where
  ascii : c.toNat < 128
  visible : isBlank c = false

theorem Solid.byte_ne {c : Char} (h : Solid c) :
    UInt8.ofNat c.toNat ≠ 0x0a ∧ UInt8.ofNat c.toNat ≠ 0x0d := by
  have hascii := h.ascii
  have hbyte : (UInt8.ofNat c.toNat).toNat = c.toNat :=
    UInt8.toNat_ofNat_of_lt' (Nat.lt_trans hascii (by decide))
  have hblank : ¬ (c.toNat = 10 ∨ c.toNat = 13) := by
    intro hc
    have hvisible := h.visible
    obtain hc | hc := hc <;> simp [isBlank, hc] at hvisible
  constructor <;> intro heq <;> rw [heq] at hbyte
  · exact hblank (.inl hbyte.symm)
  · exact hblank (.inr hbyte.symm)

theorem solid_hexDigit {n : Nat} (hn : n < 16) : Solid (hexDigit n) := by
  have hall : ∀ n < 16, (hexDigit n).toNat < 128 ∧ isBlank (hexDigit n) = false := by decide
  exact ⟨(hall n hn).1, (hall n hn).2⟩

theorem solid_hex (bytes : Bytes) : ∀ c ∈ (hex bytes).toList, Solid c := by
  intro c hc
  rw [hex, String.toList_ofList, mem_flatMap] at hc
  obtain ⟨b, -, hc⟩ := hc
  have hb := b.toNat_lt
  simp only [mem_cons, not_mem_nil, or_false] at hc
  obtain rfl | rfl := hc
  · exact solid_hexDigit (by omega)
  · exact solid_hexDigit (by omega)

theorem length_hex (bytes : Bytes) : (hex bytes).toList.length = 2 * bytes.length := by
  simp [hex, Nat.mul_comm]

theorem length_digest (parts : List Bytes) : (digest parts).toList.length = 64 := by
  rw [digest, length_hex, length_sha3]

/-! ### The stamp in a module -/

theorem readLines_line {line rest : Bytes} (hline : ∀ b ∈ line, b ≠ 0x0a)
    (hlength : line.length < lineLimit) (n : Nat) :
    readLines (n + 1) (line ++ 0x0a :: rest) = (stampOf? (dropReturn line)).elim (readLines n rest)
      fun d => .ok (String.ofList (trim (decode d))) := by
  have htake : (line ++ 0x0a :: rest).takeWhile (· ≠ 0x0a) = line := by
    rw [takeWhile_append_of_pos (by simpa using hline)]
    simp
  have hempty : (line ++ 0x0a :: rest).isEmpty = false := by simp
  have hdrop : (line ++ 0x0a :: rest).drop (line.length + 1) = rest := by simp
  rw [readLines]
  simp only [htake, hempty, hdrop, Bool.false_eq_true, if_false, Nat.not_le.mpr hlength]
  cases stampOf? (dropReturn line) <;> rfl

def titleLine : String := "// Generated by fsmc. Do not edit."

theorem title_facts : (∀ b ∈ encode titleLine, b ≠ 0x0a) ∧
    (encode titleLine).length < lineLimit ∧ stampOf? (dropReturn (encode titleLine)) = none := by
  decide +kernel

theorem mark_facts : (∀ b ∈ encode Verilog.digestMark, b ≠ 0x0a ∧ b ≠ 0x0d) ∧
    (encode Verilog.digestMark).length = 16 := by
  decide +kernel

theorem exists_render (m : Verilog.Module) (h : m.digest ≠ "") : ∃ rest, encode m.render =
    encode titleLine ++ 0x0a :: (encode (Verilog.digestMark ++ m.digest) ++ 0x0a :: rest) := by
  have hline : ∀ s, encode (Verilog.line 0 s) = encode s ++ [0x0a] := by
    intro s
    rfl
  obtain ⟨body, hbody⟩ : ∃ body, m.render = m.header ++ body := by
    simp only [Verilog.Module.render, String.append_assoc]
    exact ⟨_, rfl⟩
  refine ⟨encode body, ?_⟩
  rw [hbody, encode_append, Verilog.Module.header, if_neg h, encode_append, hline, hline]
  simp [titleLine]

/-- **The stamp of a module is read back.** -/
theorem readStamp_render {m : Verilog.Module} {parts : List Bytes} (h : m.digest = digest parts) :
    readStamp (encode m.render) = .ok (digest parts) := by
  have hsolid : ∀ c ∈ (digest parts).toList, Solid c := solid_hex (sha3 (frame parts))
  have hascii : ∀ c ∈ (digest parts).toList, c.toNat < 128 := fun c hc => (hsolid c hc).ascii
  have hlength := length_digest parts
  have hne : m.digest ≠ "" := by
    intro hempty
    rw [← h, hempty] at hlength
    exact absurd hlength (by decide)
  obtain ⟨rest, hrender⟩ := exists_render m hne
  obtain ⟨htitle, hshort, hnone⟩ := title_facts
  rw [readStamp, stampLines, hrender, readLines_line htitle hshort, hnone, Option.elim_none, h,
    encode_append]
  have hline : ∀ b ∈ encode Verilog.digestMark ++ encode (digest parts), b ≠ 0x0a ∧ b ≠ 0x0d := by
    rw [encode_ascii hascii]
    intro b hb
    obtain hb | hb := mem_append.mp hb
    · exact mark_facts.1 b hb
    · obtain ⟨c, hc, rfl⟩ := mem_map.mp hb
      exact (hsolid c hc).byte_ne
  have hlimit : (encode Verilog.digestMark ++ encode (digest parts)).length < lineLimit := by
    rw [length_append, mark_facts.2, encode_ascii hascii, length_map, hlength]
    decide
  have hreturn : dropReturn (encode Verilog.digestMark ++ encode (digest parts)) =
      encode Verilog.digestMark ++ encode (digest parts) :=
    if_neg fun hlast => (hline _ (mem_of_getLast? hlast)).2 rfl
  have hstamp : stampOf? (encode Verilog.digestMark ++ encode (digest parts)) =
      some (encode (digest parts)) := by
    simp [stampOf?]
  rw [readLines_line (fun b hb => (hline b hb).1) hlimit, hreturn, hstamp, Option.elim_some,
    decode_encode_ascii hascii, trim_of_visible fun c hc => (hsolid c hc).visible,
    String.ofList_toList]

end Sequencer.Digest
