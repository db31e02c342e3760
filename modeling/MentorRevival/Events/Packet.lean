import Mathlib.Algebra.GroupWithZero.Nat
import Mathlib.Data.List.Basic
import Mathlib.Data.List.GetD
import Mathlib.Data.List.Induction

/-!
# Packets

`packet.h` and `packet.c`. A `command_t` variable may hold any byte the decoder puts there,
so a packet carries the raw value and the `switch` statements see it through
`Command.ofUInt8?`. Encoding and decoding are inverse to each other up to the last byte of a
frame, which the decoder ignores.
-/

namespace MentorRevival

inductive Command
  | CMD_HALT | CMD_READ_CURRENT | CMD_READ_POS | CMD_SET_DUTY | CMD_SET_MODE
  deriving DecidableEq, Repr

namespace Command

def toUInt8 : Command → UInt8
  | CMD_HALT => 0
  | CMD_READ_CURRENT => 1
  | CMD_READ_POS => 2
  | CMD_SET_DUTY => 3
  | CMD_SET_MODE => 4

def ofUInt8? (c : UInt8) : Option Command :=
  match c.toNat with
  | 0 => some CMD_HALT
  | 1 => some CMD_READ_CURRENT
  | 2 => some CMD_READ_POS
  | 3 => some CMD_SET_DUTY
  | 4 => some CMD_SET_MODE
  | _ => none

@[simp] theorem ofUInt8?_toUInt8 (k : Command) : ofUInt8? k.toUInt8 = some k := by
  cases k <;> rfl

theorem toUInt8_of_ofUInt8? {c : UInt8} {k : Command} (h : ofUInt8? c = some k) :
    c = k.toUInt8 := by
  apply UInt8.toNat_inj.mp
  unfold ofUInt8? at h
  split at h
  case h_6 => cases h
  all_goals
    next hc =>
      obtain rfl := Option.some.inj h
      exact hc

end Command

@[ext] structure Packet where
  command : UInt8
  targetAxis : UInt8
  data : UInt16
  numBytes : UInt8
  deriving DecidableEq, Repr

def pktInit : Packet := { command := 0, targetAxis := 0, data := 0, numBytes := 0 }

def pktCreate (command : Command) (target : UInt8) (data : UInt16) : Packet :=
  { command := command.toUInt8, targetAxis := target, data := data, numBytes := 4 }

def pktIsComplete (packet : Packet) : Bool := 4 ≤ packet.numBytes

def pktAppendByte (packet : Packet) (byte : UInt8) : Packet :=
  if pktIsComplete packet then packet
  else
    let packet :=
      match packet.numBytes.toNat with
      | 0 => { packet with command := byte >>> 4, targetAxis := 0xF &&& byte }
      | 1 => { packet with data := byte.toUInt16 <<< 8 }
      | 2 => { packet with data := packet.data ||| byte.toUInt16 }
      | _ => packet
    { packet with numBytes := packet.numBytes + 1 }

def pktEncode (packet : Packet) : List UInt8 :=
  [(packet.command <<< 4) ||| packet.targetAxis, (packet.data >>> 8).toUInt8,
    (packet.data &&& 0xFF).toUInt8, 0xAE]

structure Frame where
  b0 : UInt8
  b1 : UInt8
  b2 : UInt8
  b3 : UInt8
  deriving DecidableEq

namespace Frame

def bytes (f : Frame) : List UInt8 := [f.b0, f.b1, f.b2, f.b3]

/-- The packet a frame stands for: command and axis nibbles, then 16 bits of data. -/
def decode (f : Frame) : Packet :=
  { command := f.b0 >>> 4, targetAxis := 0xF &&& f.b0,
    data := (f.b1.toUInt16 <<< 8) ||| f.b2.toUInt16, numBytes := 4 }

end Frame

theorem append_frame (f : Frame) : f.bytes.foldl pktAppendByte pktInit = f.decode := by
  simp [Frame.bytes, Frame.decode, pktInit, pktAppendByte, pktIsComplete]

section Words

private theorem or_eq_add {n a b : Nat} (h : b < 2 ^ n) : a * 2 ^ n ||| b = a * 2 ^ n + b := by
  rw [← Nat.shiftLeft_eq, Nat.shiftLeft_add_eq_or_of_lt h]

private theorem toNat_joinNibbles {c a : UInt8} (hc : c.toNat < 16) (ha : a.toNat < 16) :
    ((c <<< 4) ||| a).toNat = 16 * c.toNat + a.toNat := by
  have hshift : c.toNat <<< 4 % 2 ^ 8 = c.toNat * 2 ^ 4 := by
    rw [Nat.shiftLeft_eq]
    omega
  rw [UInt8.toNat_or, UInt8.toNat_shiftLeft]
  simp only [UInt8.reduceToNat, Nat.reduceMod, hshift]
  rw [or_eq_add ha]
  omega

theorem toNat_joinBytes (b c : UInt8) :
    ((b.toUInt16 <<< 8) ||| c.toUInt16).toNat = 256 * b.toNat + c.toNat := by
  have hb := b.toNat_lt
  have hshift : b.toNat <<< 8 % 2 ^ 16 = b.toNat * 2 ^ 8 := by
    rw [Nat.shiftLeft_eq]
    omega
  rw [UInt16.toNat_or, UInt16.toNat_shiftLeft]
  simp only [UInt16.reduceToNat, Nat.reduceMod, UInt8.toNat_toUInt16, hshift]
  rw [or_eq_add c.toNat_lt]
  omega

private theorem toNat_highNibble (b : UInt8) : (b >>> 4).toNat = b.toNat / 16 := by
  simp [Nat.shiftRight_eq_div_pow]

private theorem toNat_lowNibble (b : UInt8) : (0xF &&& b).toNat = b.toNat % 16 := by
  rw [UInt8.toNat_and, Nat.and_comm]
  exact Nat.and_two_pow_sub_one_eq_mod b.toNat 4

private theorem toNat_highByte (d : UInt16) : (d >>> 8).toUInt8.toNat = d.toNat / 256 := by
  have hd := d.toNat_lt
  simp only [UInt16.toNat_toUInt8, UInt16.toNat_shiftRight, UInt16.reduceToNat, Nat.reduceMod,
    Nat.shiftRight_eq_div_pow]
  omega

private theorem toNat_lowByte (d : UInt16) : (d &&& 0xFF).toUInt8.toNat = d.toNat % 256 := by
  have hmask : d.toNat &&& 255 = d.toNat % 256 := Nat.and_two_pow_sub_one_eq_mod d.toNat 8
  rw [UInt16.toNat_toUInt8, UInt16.toNat_and]
  change (d.toNat &&& 255) % 2 ^ 8 = _
  rw [hmask, Nat.mod_mod]

end Words

section Assembly

/-- The packet after any number of bytes; a byte that has not arrived counts as zero. -/
def assembled (bytes : List UInt8) : Packet :=
  { command := bytes.getD 0 0 >>> 4
    targetAxis := 0xF &&& bytes.getD 0 0
    data := ((bytes.getD 1 0).toUInt16 <<< 8) ||| (bytes.getD 2 0).toUInt16
    numBytes := UInt8.ofNat (min bytes.length 4) }

theorem pktAppendByte_of_complete {packet : Packet} (h : pktIsComplete packet = true)
    (byte : UInt8) : pktAppendByte packet byte = packet :=
  if_pos h

theorem toNat_numBytes_assembled (bytes : List UInt8) :
    (assembled bytes).numBytes.toNat = min bytes.length 4 := by
  have hlt : min bytes.length 4 < 2 ^ 8 := by omega
  exact UInt8.toNat_ofNat_of_lt' hlt

theorem pktIsComplete_assembled (bytes : List UInt8) :
    pktIsComplete (assembled bytes) = true ↔ 4 ≤ bytes.length := by
  have hcount := toNat_numBytes_assembled bytes
  rw [pktIsComplete, decide_eq_true_iff, UInt8.le_iff_toNat_le, hcount]
  change 4 ≤ min bytes.length 4 ↔ _
  omega

private theorem assembled_append_of_full {bytes : List UInt8} (h : 4 ≤ bytes.length)
    (byte : UInt8) : assembled (bytes ++ [byte]) = assembled bytes := by
  have hlen : min (bytes ++ [byte]).length 4 = min bytes.length 4 := by
    rw [List.length_append]
    omega
  have hget (i : Nat) (hi : i < 4) : (bytes ++ [byte]).getD i 0 = bytes.getD i 0 :=
    List.getD_append _ _ _ _ (by omega)
  rw [assembled, assembled, hlen, hget 0 (by decide), hget 1 (by decide), hget 2 (by decide)]

/-- Each of the first four bytes fills its stage, and later ones are dropped. -/
theorem pktAppendByte_assembled (bytes : List UInt8) (byte : UInt8) :
    pktAppendByte (assembled bytes) byte = assembled (bytes ++ [byte]) := by
  rcases bytes with _ | ⟨b0, _ | ⟨b1, _ | ⟨b2, _ | ⟨b3, bytes⟩⟩⟩⟩
  · rfl
  · simp [assembled, pktAppendByte, pktIsComplete]
  · simp [assembled, pktAppendByte, pktIsComplete]
  · simp [assembled, pktAppendByte, pktIsComplete]
  · have hfull : 4 ≤ (b0 :: b1 :: b2 :: b3 :: bytes).length := by simp
    have hcomplete := (pktIsComplete_assembled _).mpr hfull
    rw [pktAppendByte_of_complete hcomplete, assembled_append_of_full hfull]

theorem foldl_pktAppendByte (bytes : List UInt8) :
    bytes.foldl pktAppendByte pktInit = assembled bytes := by
  induction bytes using List.reverseRecOn with
  | nil => rfl
  | append_singleton bytes byte ih =>
    rw [List.foldl_append, ih]
    exact pktAppendByte_assembled bytes byte

/-- However many bytes are appended, the first three make the fields, the counter stops at four
and from then on the packet stays as it is; a packet that was created complete takes no byte. -/
theorem packet_assembly (bytes : List UInt8) :
    (bytes.foldl pktAppendByte pktInit).numBytes.toNat = min bytes.length 4 ∧
    (pktIsComplete (bytes.foldl pktAppendByte pktInit) = true ↔ 4 ≤ bytes.length) ∧
    (bytes.foldl pktAppendByte pktInit).command.toNat = (bytes.getD 0 0).toNat / 16 ∧
    (bytes.foldl pktAppendByte pktInit).targetAxis.toNat = (bytes.getD 0 0).toNat % 16 ∧
    (bytes.foldl pktAppendByte pktInit).data.toNat =
      256 * (bytes.getD 1 0).toNat + (bytes.getD 2 0).toNat ∧
    (∀ packet byte, pktIsComplete packet = true → pktAppendByte packet byte = packet) ∧
    ∀ command target data byte,
      pktAppendByte (pktCreate command target data) byte = pktCreate command target data := by
  rw [foldl_pktAppendByte]
  refine ⟨toNat_numBytes_assembled bytes, pktIsComplete_assembled bytes, ?_, ?_, ?_, ?_, ?_⟩
  · exact toNat_highNibble _
  · exact toNat_lowNibble _
  · exact toNat_joinBytes _ _
  · intro packet byte h
    exact pktAppendByte_of_complete h byte
  · intro command target data byte
    exact pktAppendByte_of_complete rfl byte

/-- A frame of six bytes: the last two are dropped. -/
theorem packet_assembly_overlong :
    pktAppendByte ([0x32, 0x4E, 0x20, 0, 0x41, 7].foldl pktAppendByte pktInit) 9 =
      [0x32, 0x4E, 0x20, 0, 0x41, 7].foldl pktAppendByte pktInit := by
  have h := packet_assembly [0x32, 0x4E, 0x20, 0, 0x41, 7]
  exact h.2.2.2.2.2.1 _ _ (h.2.1.mpr (by decide))

end Assembly

section Encode

def Packet.frame (p : Packet) : Frame :=
  ⟨(p.command <<< 4) ||| p.targetAxis, (p.data >>> 8).toUInt8, (p.data &&& 0xFF).toUInt8, 0xAE⟩

/-- The decoder recovers what was encoded when command and axis fit their nibbles. -/
theorem decode_frame {p : Packet} (hc : p.command.toNat < 16) (ha : p.targetAxis.toNat < 16) :
    p.frame.decode = { p with numBytes := 4 } := by
  have hjoin := toNat_joinNibbles hc ha
  apply Packet.ext
  · apply UInt8.toNat_inj.mp
    change (((p.command <<< 4) ||| p.targetAxis) >>> 4).toNat = p.command.toNat
    rw [toNat_highNibble, hjoin]
    omega
  · apply UInt8.toNat_inj.mp
    change ((0xF : UInt8) &&& ((p.command <<< 4) ||| p.targetAxis)).toNat = p.targetAxis.toNat
    rw [toNat_lowNibble, hjoin]
    omega
  · apply UInt16.toNat_inj.mp
    change (((p.data >>> 8).toUInt8.toUInt16 <<< 8) |||
      (p.data &&& 0xFF).toUInt8.toUInt16).toNat = p.data.toNat
    rw [toNat_joinBytes, toNat_highByte, toNat_lowByte]
    omega
  · rfl

theorem encode_decode (f : Frame) : pktEncode f.decode = [f.b0, f.b1, f.b2, 0xAE] := by
  have hb0 : ((f.b0 >>> 4) <<< 4) ||| (0xF &&& f.b0) = f.b0 := by
    have hlt := f.b0.toNat_lt
    have hhigh := toNat_highNibble f.b0
    have hlow := toNat_lowNibble f.b0
    apply UInt8.toNat_inj.mp
    rw [toNat_joinNibbles (by omega) (by omega)]
    omega
  have hb2 := f.b2.toNat_lt
  have hdata := toNat_joinBytes f.b1 f.b2
  have hhigh : (((f.b1.toUInt16 <<< 8) ||| f.b2.toUInt16) >>> 8).toUInt8 = f.b1 := by
    apply UInt8.toNat_inj.mp
    rw [toNat_highByte]
    omega
  have hlow : (((f.b1.toUInt16 <<< 8) ||| f.b2.toUInt16) &&& 0xFF).toUInt8 = f.b2 := by
    apply UInt8.toNat_inj.mp
    rw [toNat_lowByte]
    omega
  rw [pktEncode, Frame.decode, hb0, hhigh, hlow]

end Encode

end MentorRevival
