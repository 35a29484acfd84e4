import Mathlib

/-!
# Fixed-width unsigned integers in network byte order

Both codecs of the repository write the unsigned integer types `u8`, `u16`,
`u32` and `u64` as their big-endian bytes: the `tls` module through the
`tls_codec` integer impls, and `aws-mls-codec` through the `impl_stdint!` macro
of `stdint.rs`.  This module gives the byte-level functions once, by width, and
the `impl_stdint!` instances over them.

A value of a width-`w` type is a `BitVec` of `8 * size_of` bits.  A `usize` is
an unbounded natural number: the sizes summed by the codecs are sizes of data
in memory.
-/

namespace MlsRs.Codec

/-- Raw bytes, as read from or written to a buffer. -/
abbrev Bytes := List UInt8

/-- The unsigned integer types that serve as integers and length prefixes. -/
inductive IntWidth where
  | u8
  | u16
  | u32
  | u64
  deriving DecidableEq, Repr

namespace IntWidth

/-- `core::mem::size_of` of the type, in bytes. -/
def size : IntWidth → Nat
  | u8 => 1
  | u16 => 2
  | u32 => 4
  | u64 => 8

/-- Width of the type in bits. -/
def bits (width : IntWidth) : Nat := 8 * width.size

/-- The type's `MAX`. -/
def max (width : IntWidth) : Nat := 2 ^ width.bits - 1

theorem size_pos (width : IntWidth) : 0 < width.size := by
  cases width <;> decide

theorem two_pow_bits (width : IntWidth) : 2 ^ width.bits = 256 ^ width.size := by
  rw [bits, Nat.pow_mul]

theorem le_max_iff_lt (width : IntWidth) (value : Nat) :
    value ≤ width.max ↔ value < 256 ^ width.size := by
  have positive : 0 < 256 ^ width.size := Nat.pos_pow_of_pos _ (by decide)
  rw [max, two_pow_bits]
  omega

end IntWidth

/-- `to_be_bytes`: the low `size` bytes of `value`, most significant first. -/
def toBeBytes : (size : Nat) → Nat → Bytes
  | 0, _ => []
  | size + 1, value => toBeBytes size (value / 256) ++ [UInt8.ofNat value]

/-- `from_be_bytes`: the number whose big-endian bytes are `bytes`. -/
def fromBeBytes (bytes : Bytes) : Nat :=
  bytes.foldl (fun acc byte => acc * 256 + byte.toNat) 0

@[simp] theorem length_toBeBytes (size value : Nat) :
    (toBeBytes size value).length = size := by
  induction size generalizing value with
  | zero => rfl
  | succ size ih => simp [toBeBytes, ih]

theorem toNat_ofNat_byte (value : Nat) : (UInt8.ofNat value).toNat = value % 256 :=
  BitVec.toNat_ofNat value 8

theorem foldl_be (acc : Nat) (bytes : Bytes) :
    bytes.foldl (fun acc byte => acc * 256 + byte.toNat) acc =
      acc * 256 ^ bytes.length + fromBeBytes bytes := by
  induction bytes generalizing acc with
  | nil => simp [fromBeBytes]
  | cons byte bytes ih =>
      have cons : fromBeBytes (byte :: bytes) =
          byte.toNat * 256 ^ bytes.length + fromBeBytes bytes := by
        simpa [fromBeBytes] using ih byte.toNat
      rw [List.foldl_cons, ih, cons, List.length_cons, Nat.pow_succ', Nat.add_mul, Nat.mul_assoc]
      omega

@[simp] theorem fromBeBytes_singleton (byte : UInt8) : fromBeBytes [byte] = byte.toNat := by
  simp [fromBeBytes]

theorem fromBeBytes_append (front back : Bytes) :
    fromBeBytes (front ++ back) = fromBeBytes front * 256 ^ back.length + fromBeBytes back := by
  rw [fromBeBytes, List.foldl_append, foldl_be]
  rfl

/-- Reading the big-endian bytes back gives the value modulo the field's range. -/
theorem fromBeBytes_toBeBytes (size value : Nat) :
    fromBeBytes (toBeBytes size value) = value % 256 ^ size := by
  induction size generalizing value with
  | zero => simp [toBeBytes, fromBeBytes, Nat.mod_one]
  | succ size ih =>
      rw [toBeBytes, fromBeBytes_append, ih, Nat.pow_succ', Nat.mod_mul, fromBeBytes_singleton,
        toNat_ofNat_byte, List.length_singleton, Nat.pow_one]
      omega

theorem fromBeBytes_toBeBytes_of_lt {size value : Nat} (bound : value < 256 ^ size) :
    fromBeBytes (toBeBytes size value) = value := by
  rw [fromBeBytes_toBeBytes, Nat.mod_eq_of_lt bound]

/-- Writing the number that some bytes denote gives those bytes back. -/
theorem toBeBytes_fromBeBytes (bytes : Bytes) : toBeBytes bytes.length (fromBeBytes bytes) = bytes := by
  induction bytes using List.reverseRecOn with
  | nil => rfl
  | append_singleton bytes byte ih =>
      have byteBound : byte.toNat < 256 := byte.toNat_lt_size
      have high : (fromBeBytes bytes * 256 + byte.toNat) / 256 = fromBeBytes bytes := by omega
      have low : UInt8.ofNat (fromBeBytes bytes * 256 + byte.toNat) = byte :=
        UInt8.ext_iff.mpr (by rw [toNat_ofNat_byte]; omega)
      rw [fromBeBytes_append, List.length_append, List.length_singleton, fromBeBytes_singleton,
        Nat.pow_one, toBeBytes, high, low, ih]

/-- Byte `i` of `to_be_bytes`, counting from the most significant one, is the
value's digit of weight `256 ^ (size - 1 - i)`. -/
theorem getElem?_toBeBytes (size value : Nat) {i : Nat} (inRange : i < size) :
    (toBeBytes size value)[i]? = some (UInt8.ofNat (value / 256 ^ (size - 1 - i))) := by
  induction size generalizing value with
  | zero => omega
  | succ size ih =>
      rw [toBeBytes]
      rcases Nat.lt_succ_iff_lt_or_eq.mp inRange with front | last
      · have weight : size + 1 - 1 - i = (size - 1 - i) + 1 := by omega
        rw [List.getElem?_append_left (by simpa using front), ih _ front, Nat.div_div_eq_div_mul,
          weight, Nat.pow_succ']
      · subst last
        rw [List.getElem?_append_right (by simp)]
        simp

theorem fromBeBytes_lt (bytes : Bytes) : fromBeBytes bytes < 256 ^ bytes.length := by
  induction bytes using List.reverseRecOn with
  | nil => decide
  | append_singleton bytes byte ih =>
      have byteBound : byte.toNat < 256 := byte.toNat_lt_size
      rw [fromBeBytes_append, List.length_append, Nat.pow_add, fromBeBytes_singleton,
        List.length_singleton, Nat.pow_one]
      omega

/-- Modelled from the spec: the decoders of `[u8; N]` arrays, which are not in
this repository, split off the first `count` bytes of the input; `none` when it
is shorter. -/
def readBytes (count : Nat) (input : Bytes) : Option (Bytes × Bytes) :=
  if count ≤ input.length then some (input.take count, input.drop count) else none

@[simp] theorem readBytes_append (front rest : Bytes) :
    readBytes front.length (front ++ rest) = some (front, rest) := by
  simp [readBytes]

theorem readBytes_some {count : Nat} {input front rest : Bytes}
    (read : readBytes count input = some (front, rest)) :
    input = front ++ rest ∧ front.length = count := by
  unfold readBytes at read
  split at read
  · cases read
    exact ⟨(List.take_append_drop count input).symm, List.length_take_of_le ‹_›⟩
  · cases read

/-- `aws_mls_codec::Error`, with the errors of codecs outside this repository
kept by an opaque code. -/
inductive Error where
  | unexpectedEOF
  | other (code : Nat)
  deriving DecidableEq, Repr

/-- The `MlsSize`, `MlsEncode` and `MlsDecode` impls of one type: the encoding
is the bytes written, decoding reads from the front of the input and returns
what is left. -/
structure MlsCodec (T : Type) where
  encodedLen : T → Nat
  encode : T → Except Error Bytes
  decode : Bytes → Except Error (T × Bytes)

/-- A codec whose successful encodings have the announced length and decode
back, whatever follows them. -/
structure MlsCodec.Lawful {T : Type} (codec : MlsCodec T) : Prop where
  encode_length : ∀ {value bytes}, codec.encode value = .ok bytes →
    bytes.length = codec.encodedLen value
  decode_encode : ∀ {value bytes}, codec.encode value = .ok bytes →
    ∀ rest, codec.decode (bytes ++ rest) = .ok (value, rest)

/-- A decoder that reads encodings only: whatever it decodes, the encoder writes
as exactly the bytes it consumed. -/
def MlsCodec.Canonical {T : Type} (codec : MlsCodec T) : Prop :=
  ∀ {input value rest}, codec.decode input = .ok (value, rest) →
    ∃ bytes, codec.encode value = .ok bytes ∧ input = bytes ++ rest

/-! ## `impl_stdint!` -/

/-- `MlsSize::mls_encoded_len`: `size_of::<$t>()`. -/
def mlsEncodedLen (width : IntWidth) (_ : BitVec width.bits) : Nat := width.size

/-- `MlsEncode::mls_encode`: the bytes `to_be_bytes` writes. -/
def mlsEncode (width : IntWidth) (value : BitVec width.bits) : Bytes :=
  toBeBytes width.size value.toNat

/-- `MlsDecode::mls_decode`: read a `[u8; size_of]` array, then `from_be_bytes`. -/
def mlsDecode (width : IntWidth) (input : Bytes) : Except Error (BitVec width.bits × Bytes) :=
  match readBytes width.size input with
  | some (bytes, rest) => .ok (BitVec.ofNat width.bits (fromBeBytes bytes), rest)
  | none => .error .unexpectedEOF

@[simp] theorem length_mlsEncode (width : IntWidth) (value : BitVec width.bits) :
    (mlsEncode width value).length = mlsEncodedLen width value := by
  simp [mlsEncode, mlsEncodedLen]

theorem mlsDecode_mlsEncode (width : IntWidth) (value : BitVec width.bits) (rest : Bytes) :
    mlsDecode width (mlsEncode width value ++ rest) = .ok (value, rest) := by
  have read := readBytes_append (mlsEncode width value) rest
  rw [length_mlsEncode, mlsEncodedLen] at read
  have bound : value.toNat < 256 ^ width.size := width.two_pow_bits ▸ value.isLt
  rw [mlsDecode, read]
  simp only [mlsEncode, fromBeBytes_toBeBytes_of_lt bound, BitVec.ofNat_toNat, BitVec.setWidth_eq]

/-- A value read from `size_of` bytes is written back as those bytes. -/
theorem toBeBytes_ofNat_fromBeBytes {width : IntWidth} {bytes : Bytes} (length : bytes.length = width.size) :
    toBeBytes width.size (BitVec.ofNat width.bits (fromBeBytes bytes)).toNat = bytes := by
  have bound : fromBeBytes bytes < 2 ^ width.bits := width.two_pow_bits ▸ length ▸ fromBeBytes_lt bytes
  rw [BitVec.toNat_ofNat, Nat.mod_eq_of_lt bound, ← length, toBeBytes_fromBeBytes]

theorem mlsDecode_eq_ok_iff (width : IntWidth) (input : Bytes) (value : BitVec width.bits)
    (rest : Bytes) : mlsDecode width input = .ok (value, rest) ↔ input = mlsEncode width value ++ rest := by
  constructor
  · intro decoded
    unfold mlsDecode at decoded
    split at decoded
    · rename_i bytes after read
      obtain ⟨rfl, length⟩ := readBytes_some read
      cases decoded
      rw [mlsEncode, toBeBytes_ofNat_fromBeBytes length]
    · cases decoded
  · rintro rfl
    exact mlsDecode_mlsEncode width value rest

theorem mlsDecode_eq_error_iff (width : IntWidth) (input : Bytes) :
    mlsDecode width input = .error .unexpectedEOF ↔ input.length < width.size := by
  unfold mlsDecode readBytes
  split_ifs with enough
  · simp [enough]
  · simpa using Nat.lt_of_not_le enough

/-- `impl_stdint!` for `u8`, `u16`, `u32` and `u64`: every value is written as
`size_of` bytes, most significant first, and reads back from the front of any
input, leaving the rest. -/
theorem stdint_encodes_big_endian (width : IntWidth) (value : BitVec width.bits) (rest : Bytes) :
    (mlsEncode width value).length = mlsEncodedLen width value ∧
      mlsEncodedLen width value = width.size ∧
      (∀ i < width.size, (mlsEncode width value)[i]? =
        some (UInt8.ofNat (value.toNat / 256 ^ (width.size - 1 - i)))) ∧
      mlsDecode width (mlsEncode width value ++ rest) = .ok (value, rest) :=
  ⟨length_mlsEncode width value, rfl, fun _ inRange => getElem?_toBeBytes _ _ inRange,
    mlsDecode_mlsEncode width value rest⟩

/-- The `impl_stdint!` decoders invert the encoders on every input: they fail,
with `UnexpectedEOF`, exactly on inputs shorter than `size_of`, and whatever
they read is the encoding of the value they return. -/
theorem stdint_decode_reads_encoding (width : IntWidth) (input : Bytes) :
    (mlsDecode width input = .error .unexpectedEOF ↔ input.length < width.size) ∧
      (width.size ≤ input.length → ∃ value rest, mlsDecode width input = .ok (value, rest)) ∧
      ∀ value rest, mlsDecode width input = .ok (value, rest) ↔
        input = mlsEncode width value ++ rest :=
  ⟨mlsDecode_eq_error_iff width input,
    fun enough => ⟨_, _, by rw [mlsDecode, readBytes, if_pos enough]⟩,
    mlsDecode_eq_ok_iff width input⟩

example : mlsEncode .u64 100000000000 = [0, 0, 0, 23, 72, 118, 232, 0] := by decide

end MlsRs.Codec
