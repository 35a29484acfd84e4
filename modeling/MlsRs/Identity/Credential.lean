import MlsRs.Codec.Integer
import MlsRs.Result

/-!
# The credential codec

`Credential` is encoded as its `CredentialType`, a `u16`, followed by the body
of the variant: the identifier of a `BasicCredential` and the data of a
`CustomCredential` as `aws_mls_codec::byte_vec`, a `CertificateChain` by its
derived codec.  The decoder dispatches on the type: `BASIC`, `X509` when the
`x509` feature is on, and every other value is a custom credential.

`byte_vec` and the `x509` module are not part of this repository; their codecs
are parameters, asked to be lawful.
-/

namespace MlsRs.Identity

open MlsRs.Codec

/-- `CredentialType(u16)`. -/
structure CredentialType where
  rawValue : BitVec IntWidth.u16.bits
  deriving DecidableEq, Repr

namespace CredentialType

/-- Basic identity. -/
def BASIC : CredentialType := ⟨1⟩

/-- X509 certificate identity. -/
def X509 : CredentialType := ⟨2⟩

end CredentialType

/-- Bare assertion of an identity. -/
structure BasicCredential where
  identifier : Bytes
  deriving DecidableEq, Repr

/-- Custom user created credential type. -/
structure CustomCredential where
  credentialType : CredentialType
  data : Bytes
  deriving DecidableEq, Repr

/-- A credential; its `X509` variant holds a certificate chain of type `Chain`. -/
inductive Credential (Chain : Type) where
  | basic (credential : BasicCredential)
  | x509 (chain : Chain)
  | custom (credential : CustomCredential)
  deriving DecidableEq, Repr

/-- What the credential codec takes from outside this repository. -/
structure CredentialCodecs (Chain : Type) where
  /-- Whether the `x509` feature is enabled. -/
  x509 : Bool
  /-- `aws_mls_codec::byte_vec`. -/
  byteVec : MlsCodec Bytes
  /-- The derived codec of `CertificateChain`. -/
  certificateChain : MlsCodec Chain

/-- Both codecs taken from outside are lawful. -/
structure CredentialCodecs.Lawful {Chain : Type} (codecs : CredentialCodecs Chain) : Prop where
  byteVec : codecs.byteVec.Lawful
  certificateChain : codecs.certificateChain.Lawful

/-- Both codecs taken from outside decode encodings only. -/
structure CredentialCodecs.Canonical {Chain : Type} (codecs : CredentialCodecs Chain) : Prop where
  byteVec : codecs.byteVec.Canonical
  certificateChain : codecs.certificateChain.Canonical

variable {Chain : Type} (codecs : CredentialCodecs Chain)

namespace Credential

/-- `Credential::credential_type`. -/
def credentialType : Credential Chain → CredentialType
  | basic _ => .BASIC
  | x509 _ => .X509
  | custom credential => credential.credentialType

/-- The variant exists in the build: no `X509` credential without the feature. -/
def InBuild : Credential Chain → Prop
  | x509 _ => codecs.x509 = true
  | _ => True

/-- A custom credential carrying a type that the decoder dispatches on. -/
def ReservedCustom : Credential Chain → Prop
  | custom credential => credential.credentialType = .BASIC ∨
      codecs.x509 = true ∧ credential.credentialType = .X509
  | _ => False

/-- `MlsSize for Credential`. -/
def mlsEncodedLen (credential : Credential Chain) : Nat :=
  let innerLen := match credential with
    | basic credential => codecs.byteVec.encodedLen credential.identifier
    | x509 chain => codecs.certificateChain.encodedLen chain
    | custom credential => codecs.byteVec.encodedLen credential.data
  Codec.mlsEncodedLen .u16 credential.credentialType.rawValue + innerLen

/-- `MlsEncode for Credential`. -/
def mlsEncode (credential : Credential Chain) : Except Error Bytes := do
  let header := Codec.mlsEncode .u16 credential.credentialType.rawValue
  let body ← match credential with
    | basic credential => codecs.byteVec.encode credential.identifier
    | x509 chain => codecs.certificateChain.encode chain
    | custom credential => codecs.byteVec.encode credential.data
  pure (header ++ body)

/-- `MlsDecode for Credential`. -/
def mlsDecode (input : Bytes) : Except Error (Credential Chain × Bytes) := do
  let (rawValue, input) ← Codec.mlsDecode .u16 input
  let credentialType : CredentialType := ⟨rawValue⟩
  if credentialType = .BASIC then
    let (identifier, rest) ← codecs.byteVec.decode input
    pure (basic ⟨identifier⟩, rest)
  else if codecs.x509 = true ∧ credentialType = .X509 then
    let (chain, rest) ← codecs.certificateChain.decode input
    pure (x509 chain, rest)
  else
    let (data, rest) ← codecs.byteVec.decode input
    pure (custom ⟨credentialType, data⟩, rest)

end Credential

section Codec

variable {codecs}

@[simp] theorem basic_ne_x509 : CredentialType.BASIC ≠ CredentialType.X509 := by decide

@[simp] theorem x509_ne_basic : CredentialType.X509 ≠ CredentialType.BASIC := by decide

/-- Decoding starts from the encoded type: the rest of the input goes to the
variant the type selects. -/
theorem mlsDecode_header (credentialType : CredentialType) (input : Bytes) :
    Credential.mlsDecode codecs (Codec.mlsEncode .u16 credentialType.rawValue ++ input) =
      if credentialType = .BASIC then
        (codecs.byteVec.decode input).map fun (identifier, rest) => (.basic ⟨identifier⟩, rest)
      else if codecs.x509 = true ∧ credentialType = .X509 then
        (codecs.certificateChain.decode input).map fun (chain, rest) => (.x509 chain, rest)
      else
        (codecs.byteVec.decode input).map fun (data, rest) =>
          (.custom ⟨credentialType, data⟩, rest) := by
  simp only [Credential.mlsDecode, Codec.mlsDecode_mlsEncode, ok_bind]
  split_ifs <;> cases codecs.byteVec.decode input <;> cases codecs.certificateChain.decode input <;>
    rfl

theorem mlsEncode_ok {credential : Credential Chain} {bytes : Bytes}
    (encoded : credential.mlsEncode codecs = .ok bytes) :
    ∃ body, bytes = Codec.mlsEncode .u16 credential.credentialType.rawValue ++ body ∧
      match credential with
      | .basic credential => codecs.byteVec.encode credential.identifier = .ok body
      | .x509 chain => codecs.certificateChain.encode chain = .ok body
      | .custom credential => codecs.byteVec.encode credential.data = .ok body := by
  cases credential <;>
  · simp only [Credential.mlsEncode, bind_eq_ok, pure_eq_ok] at encoded
    obtain ⟨body, bodyOk, rfl⟩ := encoded
    exact ⟨body, rfl, bodyOk⟩

/-- The credential codec round-trips on every credential of the build except a
custom credential carrying a type the decoder dispatches on (`BASIC`, and `X509`
with the `x509` feature), which decodes as another variant; and
`mls_encoded_len` is the number of bytes `mls_encode` writes. -/
theorem credential_codec_roundtrip (lawful : codecs.Lawful) (credential : Credential Chain)
    (inBuild : credential.InBuild codecs) {bytes : Bytes}
    (encoded : credential.mlsEncode codecs = .ok bytes) :
    (∀ rest, Credential.mlsDecode codecs (bytes ++ rest) = .ok (credential, rest) ↔
        ¬credential.ReservedCustom codecs) ∧
      credential.mlsEncodedLen codecs = bytes.length := by
  obtain ⟨body, rfl, bodyOk⟩ := mlsEncode_ok encoded
  cases credential with
  | basic credential =>
      refine ⟨fun rest => ?_, ?_⟩
      · simp [List.append_assoc, mlsDecode_header, Credential.credentialType,
          lawful.byteVec.decode_encode bodyOk, Credential.ReservedCustom]
      · simp [Credential.mlsEncodedLen, lawful.byteVec.encode_length bodyOk]
  | x509 chain =>
      refine ⟨fun rest => ?_, ?_⟩
      · simp only [Credential.InBuild] at inBuild
        simp [List.append_assoc, mlsDecode_header, Credential.credentialType, inBuild,
          lawful.certificateChain.decode_encode bodyOk, Credential.ReservedCustom]
      · simp [Credential.mlsEncodedLen, lawful.certificateChain.encode_length bodyOk]
  | custom credential =>
      refine ⟨fun rest => ?_, ?_⟩
      · simp only [List.append_assoc, mlsDecode_header, Credential.credentialType,
          lawful.byteVec.decode_encode bodyOk, Credential.ReservedCustom]
        by_cases isBasic : credential.credentialType = .BASIC
        · simp [isBasic]
        · by_cases isX509 : codecs.x509 = true ∧ credential.credentialType = .X509
          · cases codecs.certificateChain.decode (body ++ rest) <;> simp [isX509]
          · simp [isBasic, isX509]
      · simp [Credential.mlsEncodedLen, lawful.byteVec.encode_length bodyOk]

/-- `Credential::mls_decode` reads encodings only: on every input it accepts,
the credential it returns exists in the build, is never a custom credential
carrying a type the decoder dispatches on, and encodes to exactly the bytes it
read. -/
theorem credential_decode_reads_encoding (canonical : codecs.Canonical) {input rest : Bytes}
    {credential : Credential Chain}
    (decoded : Credential.mlsDecode codecs input = .ok (credential, rest)) :
    credential.InBuild codecs ∧ ¬credential.ReservedCustom codecs ∧
      ∃ bytes, credential.mlsEncode codecs = .ok bytes ∧ input = bytes ++ rest := by
  simp only [Credential.mlsDecode, bind_eq_ok] at decoded
  obtain ⟨⟨rawValue, after⟩, header, decoded⟩ := decoded
  rw [Codec.mlsDecode_eq_ok_iff] at header
  subst header
  split_ifs at decoded with isBasic isX509
  · obtain ⟨⟨identifier, rest'⟩, body, same⟩ := bind_eq_ok.mp decoded
    cases pure_eq_ok.mp same
    obtain ⟨bytes, encoded, rfl⟩ := canonical.byteVec body
    refine ⟨trivial, id, _, by simp only [Credential.mlsEncode, encoded, ok_bind]; rfl, ?_⟩
    simp only [Credential.credentialType, ← isBasic, List.append_assoc]
  · obtain ⟨⟨chain, rest'⟩, body, same⟩ := bind_eq_ok.mp decoded
    cases pure_eq_ok.mp same
    obtain ⟨bytes, encoded, rfl⟩ := canonical.certificateChain body
    refine ⟨isX509.1, id, _, by simp only [Credential.mlsEncode, encoded, ok_bind]; rfl, ?_⟩
    simp only [Credential.credentialType, ← isX509.2, List.append_assoc]
  · obtain ⟨⟨data, rest'⟩, body, same⟩ := bind_eq_ok.mp decoded
    cases pure_eq_ok.mp same
    obtain ⟨bytes, encoded, rfl⟩ := canonical.byteVec body
    refine ⟨trivial, fun reserved => ?_, _, by simp only [Credential.mlsEncode, encoded, ok_bind]; rfl,
      by simp [Credential.credentialType]⟩
    rcases reserved with basic | x509
    · exact isBasic basic
    · exact isX509 x509

end Codec

/-- A byte vector behind a one-byte length, for data shorter than 256 bytes: a
lawful codec to run the examples with.  It is not `byte_vec`, whose length
prefix is a variable-length integer that takes two bytes from 64 on; the
results above hold for every lawful byte-vector codec. -/
def shortByteVec : MlsCodec Bytes where
  encodedLen data := data.length + 1
  encode data :=
    if data.length < 256 then .ok (UInt8.ofNat data.length :: data) else .error (.other 0)
  decode
    | [] => .error .unexpectedEOF
    | length :: input =>
        match readBytes length.toNat input with
        | some (data, rest) => .ok (data, rest)
        | none => .error .unexpectedEOF

theorem shortByteVec_lawful : shortByteVec.Lawful where
  encode_length := by
    intro data bytes encoded
    simp only [shortByteVec] at encoded
    split_ifs at encoded
    cases encoded
    rfl
  decode_encode := by
    intro data bytes encoded rest
    simp only [shortByteVec] at encoded
    split_ifs at encoded with short
    cases encoded
    simp [shortByteVec, toNat_ofNat_byte, Nat.mod_eq_of_lt short]

theorem shortByteVec_canonical : shortByteVec.Canonical := by
  intro input data rest decoded
  match input, decoded with
  | length :: input, decoded =>
    simp only [shortByteVec] at decoded
    split at decoded
    · rename_i read
      obtain ⟨rfl, size⟩ := readBytes_some read
      cases decoded
      have short : data.length < 256 := size ▸ length.toNat_lt_size
      have sameLength : UInt8.ofNat data.length = length :=
        UInt8.ext_iff.mpr (by rw [toNat_ofNat_byte, size]; exact Nat.mod_eq_of_lt length.toNat_lt_size)
      exact ⟨length :: data, by simp only [shortByteVec, if_pos short, sameLength], rfl⟩
    · cases decoded

/-- The codecs of a build without `x509`, with the short byte vector. -/
def shortCodecs : CredentialCodecs Unit where
  x509 := false
  byteVec := shortByteVec
  certificateChain := ⟨fun _ => 0, fun _ => .ok [], fun input => .ok ((), input)⟩

theorem shortCodecs_lawful : shortCodecs.Lawful where
  byteVec := shortByteVec_lawful
  certificateChain := ⟨by rintro _ _ ⟨⟩; rfl, by rintro _ _ ⟨⟩ _; rfl⟩

theorem custom_credential_roundtrip :
    (∀ rest, Credential.mlsDecode shortCodecs ([0, 7, 1, 9] ++ rest) =
        .ok (.custom ⟨⟨7⟩, [9]⟩, rest) ↔
      ¬(Credential.custom ⟨⟨7⟩, [9]⟩ : Credential Unit).ReservedCustom shortCodecs) ∧
    (Credential.custom ⟨⟨7⟩, [9]⟩ : Credential Unit).mlsEncodedLen shortCodecs =
      [0, 7, 1, 9].length :=
  credential_codec_roundtrip shortCodecs_lawful (.custom ⟨⟨7⟩, [9]⟩) trivial rfl

theorem shortCodecs_canonical : shortCodecs.Canonical where
  byteVec := shortByteVec_canonical
  certificateChain := by rintro input _ rest ⟨⟩; exact ⟨[], rfl, rfl⟩

theorem custom_credential_decoded_from_encoding :
    (Credential.custom ⟨⟨7⟩, [9]⟩ : Credential Unit).InBuild shortCodecs ∧
      ¬(Credential.custom ⟨⟨7⟩, [9]⟩ : Credential Unit).ReservedCustom shortCodecs ∧
      ∃ bytes, (Credential.custom ⟨⟨7⟩, [9]⟩ : Credential Unit).mlsEncode shortCodecs = .ok bytes ∧
        [0, 7, 1, 9, 4] = bytes ++ [4] :=
  credential_decode_reads_encoding shortCodecs_canonical
    (show Credential.mlsDecode shortCodecs [0, 7, 1, 9, 4] = .ok (.custom ⟨⟨7⟩, [9]⟩, [4]) from rfl)

end MlsRs.Identity
