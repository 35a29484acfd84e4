import MlsRs.Codec.Integer
import MlsRs.ProposalFilter.Bundle

/-!
# The proposal filter

`filtering.rs` validates the proposals of a commit sent by a member.
`apply_proposals_from_member` runs a chain of stages; each stage checks the
proposals of one type and, for a failure, lets the `FilterStrategy` decide:
under `IgnoreByRef` a failing by-reference proposal is dropped, any other
failure fails the commit.  `apply_proposal_changes` then settles the group
context extensions proposal and `validate_new_nodes` checks the new and updated
leaves against the group extensions in force.

The checks that code outside this repository performs (PSK validity, leaf-node
validation, the identity provider's successor check, external-sender identities,
key-package properties, the capability check of
`apply_proposals_with_new_capabilities`) are fields of `ProposalApplier`.
The model stops where `apply_tree_changes` hands the bundle to `batch_edit` of
the tree, which is outside this repository.  All cargo features are on.
-/

namespace MlsRs.ProposalFilter

open MlsRs.Codec (Bytes)

variable {P : Payloads}

/-- `MlsError`, as far as the filter raises it itself; errors of providers and
validators outside this repository are kept by an opaque code. -/
inductive MlsError where
  | invalidProposalTypeForSender
  | invalidCommitSelfUpdate
  | committerSelfRemoval
  | moreThanOneGroupContextExtensionsProposal
  | invalidProtocolVersionInReInit
  | otherProposalWithReInit
  | internalProposalFilterError
  | invalidSuccessor
  | provider (code : Nat)
  deriving DecidableEq, Repr

/-- `MlsTime`, in seconds. -/
abbrev MlsTime := Nat

inductive FilterStrategy where
  | ignoreByRef
  | ignoreNone
  deriving DecidableEq, Repr

namespace FilterStrategy

def ignore : FilterStrategy → Bool → Bool
  | ignoreByRef, byRef => byRef
  | ignoreNone, _ => false

def isIgnore : FilterStrategy → Bool
  | ignoreByRef => true
  | ignoreNone => false

end FilterStrategy

/-- `apply_strategy`: `Ok(true)` keeps the proposal, `Ok(false)` drops it. -/
def applyStrategy (strategy : FilterStrategy) (byRef : Bool) (result : Except MlsError Unit) :
    Except MlsError Bool :=
  match result with
  | .ok () => .ok true
  | .error error => if strategy.ignore byRef then .ok false else .error error

/-- `proposer_can_propose`: the allowed (sender, origin, type) matrix. -/
def proposerCanPropose (proposer : Sender) (proposalType : ProposalType) (byRef : Bool) :
    Except MlsError Unit :=
  let canPropose := match proposer, byRef with
    | .member _, false => [ProposalType.ADD, .REMOVE, .PSK, .RE_INIT,
        .GROUP_CONTEXT_EXTENSIONS].contains proposalType
    | .member _, true => [ProposalType.ADD, .UPDATE, .REMOVE, .PSK, .RE_INIT,
        .GROUP_CONTEXT_EXTENSIONS].contains proposalType
    | .external _, false => false
    | .external _, true => [ProposalType.ADD, .REMOVE, .RE_INIT, .PSK,
        .GROUP_CONTEXT_EXTENSIONS].contains proposalType
    | .newMemberCommit, false => [ProposalType.REMOVE, .PSK, .EXTERNAL_INIT].contains proposalType
    | .newMemberCommit, true => false
    | .newMemberProposal, false => false
    | .newMemberProposal, true => proposalType == .ADD
  require canPropose .invalidProposalTypeForSender

/-- `ValidationContext` of the leaf-node validator. -/
inductive ValidationContext where
  | update (groupId : Bytes) (senderIndex : LeafIndex) (commitTime : Option MlsTime)
  | add (commitTime : Option MlsTime)

/-- What `ProposalApplier` reads: the group's state, and the checks it delegates
to code outside this repository. -/
structure ProposalApplier (P : Payloads) where
  protocolVersion : ProtocolVersion
  groupId : Bytes
  originalGroupExtensions : P.ExtensionList
  /-- `original_tree.get_leaf_node`. -/
  getLeafNode : LeafIndex → Except MlsError P.LeafNode
  /-- `filter_out_invalid_psks` on one proposal. -/
  pskCheck : P.PreSharedKeyID → Except MlsError Unit
  /-- `get_as::<ExternalSendersExt>()` and `verify_all` of an extension list. -/
  externalSendersCheck : P.ExtensionList → Option MlsTime → Except MlsError Unit
  /-- `get_as::<RequiredCapabilitiesExt>()` of an extension list. -/
  requiredCapabilities : P.ExtensionList → Except MlsError Unit
  /-- `LeafNodeValidator::check_if_valid` under the group extensions in use. -/
  checkIfValid : P.ExtensionList → P.LeafNode → ValidationContext → Except MlsError Unit
  /-- `leaf_supports_extensions`. -/
  leafSupportsExtensions : P.LeafNode → P.ExtensionList → Except MlsError Unit
  /-- `IdentityProvider::valid_successor` of an old and a new leaf. -/
  validSuccessor : P.LeafNode → P.LeafNode → Except MlsError Bool
  /-- `validate_key_package_properties`. -/
  validateKeyPackageProperties : P.KeyPackage → ProtocolVersion → Except MlsError Unit
  /-- The capability check of `apply_proposals_with_new_capabilities`: the new
  extensions against the leaves the applied proposals leave in the tree. -/
  newCapabilitiesSupported : P.ExtensionList → ProposalBundle P → Except MlsError Unit

/-! ## Loops -/

/-- The loops `for i in (0..len).rev()`, which remove entry `i` by `erase i` when
`step i` answers `false`. -/
def removeRevBy (erase : Nat → ProposalBundle P → ProposalBundle P)
    (step : Nat → ProposalBundle P → Except MlsError Bool) :
    Nat → ProposalBundle P → Except MlsError (ProposalBundle P)
  | 0, proposals => pure proposals
  | i + 1, proposals => do
      let keep ← step i proposals
      removeRevBy erase step i (if keep then proposals else erase i proposals)

/-- The same loops with `proposals.remove::<T>(i)`, which remove entry `i` of
`kind`. -/
def removeRev (kind : ProposalKind) (step : Nat → ProposalBundle P → Except MlsError Bool) :
    Nat → ProposalBundle P → Except MlsError (ProposalBundle P) :=
  removeRevBy (fun i proposals => proposals.remove kind i) step

/-- The loops `for (i, p) in ....enumerate()` that push `i` to `bad_indices`
when `decide p` answers `false`. -/
def collectBadIndices {α : Type} (decide : α → Except MlsError Bool) (entries : List α) :
    Except MlsError (List Nat) :=
  entries.enum.foldlM (fun badIndices (i, p) => do
    let keep ← decide p
    pure (if keep then badIndices else badIndices ++ [i])) []

/-- `bad_indices.into_iter().rev().for_each(|i| proposals.remove::<T>(i))`. -/
def removeIndices (proposals : ProposalBundle P) (kind : ProposalKind) (badIndices : List Nat) :
    ProposalBundle P :=
  badIndices.reverse.foldl (fun proposals i => proposals.remove kind i) proposals

/-! ## Stages of `apply_proposals_from_member` -/

/-- The body of such a loop that reads `proposals.<kind>()[i]` and answers by
`verdict`. -/
def entryVerdict (kind : ProposalKind) (verdict : ProposalInfo (kind.Payload P) → Except MlsError Bool)
    (i : Nat) (proposals : ProposalBundle P) : Except MlsError Bool :=
  match (proposals.get kind)[i]? with
  | some p => verdict p
  | none => pure true

/-- One loop of `filter_out_invalid_proposers`: the entries of `kind`, checked as
proposals of `proposalType`. -/
def filterOutInvalidProposersOf (strategy : FilterStrategy) (kind : ProposalKind)
    (proposalType : ProposalType) (proposals : ProposalBundle P) :
    Except MlsError (ProposalBundle P) :=
  removeRev kind (entryVerdict kind fun p =>
      applyStrategy strategy p.isByReference (proposerCanPropose p.sender proposalType p.isByReference))
    (proposals.get kind).length proposals

/-- `filter_out_invalid_proposers`. -/
def filterOutInvalidProposers (strategy : FilterStrategy) (proposals : ProposalBundle P) :
    Except MlsError (ProposalBundle P) := do
  let proposals ← filterOutInvalidProposersOf strategy .add .ADD proposals
  let proposals ← filterOutInvalidProposersOf strategy .update .UPDATE proposals
  let proposals ← filterOutInvalidProposersOf strategy .remove .REMOVE proposals
  let proposals ← filterOutInvalidProposersOf strategy .psk .PSK proposals
  let proposals ← filterOutInvalidProposersOf strategy .reInit .RE_INIT proposals
  let proposals ← filterOutInvalidProposersOf strategy .externalInit .EXTERNAL_INIT proposals
  filterOutInvalidProposersOf strategy .groupContextExtensions .GROUP_CONTEXT_EXTENSIONS proposals

/-- `filter_out_update_for_committer`. -/
def filterOutUpdateForCommitter (strategy : FilterStrategy) (commitSender : LeafIndex)
    (proposals : ProposalBundle P) : Except MlsError (ProposalBundle P) :=
  proposals.retainByType .update fun p =>
    applyStrategy strategy p.isByReference
      (require (p.sender != .member commitSender) .invalidCommitSelfUpdate)

/-- `leaf_index_of_update_sender`. -/
def leafIndexOfUpdateSender (p : ProposalInfo (UpdateProposal P)) : Except MlsError LeafIndex :=
  match p.sender with
  | .member i => .ok i
  | _ => .error .invalidProposalTypeForSender

/-- `filter_out_removal_of_committer`. -/
def filterOutRemovalOfCommitter (strategy : FilterStrategy) (commitSender : LeafIndex)
    (proposals : ProposalBundle P) : Except MlsError (ProposalBundle P) :=
  proposals.retainByType .remove fun p =>
    applyStrategy strategy p.isByReference
      (require (p.proposal.toRemove != commitSender) .committerSelfRemoval)

/-- Modelled from the spec: `filter_out_invalid_psks`, a per-proposal check
that the referenced PSK is valid, with the removal loop of its sibling stages. -/
def filterOutInvalidPsks (env : ProposalApplier P) (strategy : FilterStrategy)
    (proposals : ProposalBundle P) : Except MlsError (ProposalBundle P) := do
  let badIndices ← collectBadIndices (fun p : ProposalInfo (PreSharedKeyProposal P) =>
    applyStrategy strategy p.isByReference (env.pskCheck p.proposal.psk)) proposals.psks
  pure (removeIndices proposals .psk badIndices)

/-- `filter_out_invalid_group_extensions`. -/
def filterOutInvalidGroupExtensions (env : ProposalApplier P) (strategy : FilterStrategy)
    (proposals : ProposalBundle P) (commitTime : Option MlsTime) :
    Except MlsError (ProposalBundle P) := do
  let badIndices ← collectBadIndices (fun p : ProposalInfo P.ExtensionList =>
      applyStrategy strategy p.isByReference (env.externalSendersCheck p.proposal commitTime))
    proposals.groupContextExtensions
  pure (removeIndices proposals .groupContextExtensions badIndices)

/-- The closure of `filter_out_extra_group_context_extensions`, called on the
entries in order with its captured `found` flag. -/
def extraGroupContextExtensionsMask {α : Type} (strategy : FilterStrategy) :
    (found : Bool) → List (ProposalInfo α) → Except MlsError (List Bool)
  | _, [] => pure []
  | found, p :: rest => do
      let keep ← applyStrategy strategy p.isByReference
        (require (!found) .moreThanOneGroupContextExtensionsProposal)
      let mask ← extraGroupContextExtensionsMask strategy true rest
      pure (keep :: mask)

/-- `filter_out_extra_group_context_extensions`. -/
def filterOutExtraGroupContextExtensions (strategy : FilterStrategy)
    (proposals : ProposalBundle P) : Except MlsError (ProposalBundle P) := do
  let mask ← extraGroupContextExtensionsMask strategy false proposals.groupContextExtensions
  pure (proposals.retain .groupContextExtensions mask)

/-- `filter_out_invalid_reinit`. -/
def filterOutInvalidReinit (strategy : FilterStrategy) (proposals : ProposalBundle P)
    (protocolVersion : ProtocolVersion) : Except MlsError (ProposalBundle P) :=
  proposals.retainByType .reInit fun p =>
    applyStrategy strategy p.isByReference
      (require (decide (p.proposal.version ≥ protocolVersion)) .invalidProtocolVersionInReInit)

/-- `filter_out_reinit_if_other_proposals`. -/
def filterOutReinitIfOtherProposals (filter : Bool) (proposals : ProposalBundle P) :
    Except MlsError (ProposalBundle P) :=
  let hasOtherTypes := decide (proposals.length > proposals.reinitializations.length)
  if hasOtherTypes then
    let anyByVal := proposals.reinitializations.any (·.isByValue)
    if anyByVal || (!proposals.reinitializations.isEmpty && !filter) then
      .error .otherProposalWithReInit
    else .ok { proposals with reinitializations := [] }
  else .ok proposals

/-- `filter_out_external_init`. -/
def filterOutExternalInit (strategy : FilterStrategy) (proposals : ProposalBundle P) :
    Except MlsError (ProposalBundle P) :=
  proposals.retainByType .externalInit fun p =>
    applyStrategy strategy p.isByReference (.error .invalidProposalTypeForSender)

/-! ## `validate_new_nodes` and `apply_proposal_changes` -/

namespace ProposalApplier

variable (env : ProposalApplier P) (strategy : FilterStrategy)
  (groupExtensionsInUse : P.ExtensionList) (commitTime : Option MlsTime)

/-- The checks of one Update against its sender's index and old leaf. -/
def updateResult (p : ProposalInfo (UpdateProposal P)) (senderIndex : LeafIndex)
    (oldLeaf : P.LeafNode) : Except MlsError Unit :=
  let leaf := p.proposal.leafNode
  let valid := env.checkIfValid groupExtensionsInUse leaf
    (.update env.groupId senderIndex commitTime)
  let extensionsAreSupported := env.leafSupportsExtensions leaf groupExtensionsInUse
  let validSuccessor := env.validSuccessor oldLeaf leaf >>= fun valid =>
    require valid .invalidSuccessor
  resultAnd (resultAnd valid extensionsAreSupported) validSuccessor

/-- The body of the Update loop of `validate_new_nodes` for one Update and its
sender: `get_leaf_node(sender_index)?`, then the strategy. -/
def updateVerdict (p : ProposalInfo (UpdateProposal P)) (senderIndex : LeafIndex) :
    Except MlsError Bool := do
  let oldLeaf ← env.getLeafNode senderIndex
  applyStrategy strategy p.isByReference
    (env.updateResult groupExtensionsInUse commitTime p senderIndex oldLeaf)

/-- The Update loop of `validate_new_nodes` at index `i`. -/
def validateUpdate (i : Nat) (proposals : ProposalBundle P) : Except MlsError Bool := do
  let senderIndex ← match proposals.updateSenders[i]? with
    | some senderIndex => pure senderIndex
    | none => throw .internalProposalFilterError
  match proposals.updates[i]? with
  | some p => env.updateVerdict strategy groupExtensionsInUse commitTime p senderIndex
  | none => pure true

/-- The checks of one Add. -/
def addResult (p : ProposalInfo (AddProposal P)) : Except MlsError Unit :=
  let leaf := P.leafNode p.proposal.keyPackage
  let valid := env.checkIfValid groupExtensionsInUse leaf (.add commitTime)
  let extensionsAreSupported := env.leafSupportsExtensions leaf groupExtensionsInUse
  resultAnd (resultAnd valid extensionsAreSupported)
    (env.validateKeyPackageProperties p.proposal.keyPackage env.protocolVersion)

/-- `validate_new_nodes`. -/
def validateNewNodes (proposals : ProposalBundle P) : Except MlsError (ProposalBundle P) := do
  env.requiredCapabilities groupExtensionsInUse
  let proposals ← removeRev .update (env.validateUpdate strategy groupExtensionsInUse commitTime)
    proposals.updates.length proposals
  let badIndices ← collectBadIndices (fun p => applyStrategy strategy p.isByReference
    (env.addResult groupExtensionsInUse commitTime p)) proposals.additions
  pure (removeIndices proposals .add badIndices)

/-- `apply_tree_changes`, up to the hand-over to `batch_edit`: the bundle it
applies. -/
def applyTreeChanges (proposals : ProposalBundle P) : Except MlsError (ProposalBundle P) :=
  env.validateNewNodes strategy groupExtensionsInUse commitTime proposals

/-- Modelled from the spec: `apply_proposals_with_new_capabilities`.  The
proposals are applied under the new extensions; if the new extensions are not
supported and the strategy drops the extensions proposal, they are applied again
without it under the original extensions. -/
def applyProposalsWithNewCapabilities (proposals : ProposalBundle P)
    (groupContextExtensionsProposal : ProposalInfo P.ExtensionList) :
    Except MlsError (ProposalBundle P) := do
  let output ← env.applyTreeChanges strategy groupContextExtensionsProposal.proposal commitTime
    proposals
  match env.newCapabilitiesSupported groupContextExtensionsProposal.proposal output with
  | .ok () => pure output
  | .error e =>
      if strategy.ignore groupContextExtensionsProposal.isByReference then
        let proposals := { proposals with groupContextExtensions := [] }
        env.applyTreeChanges strategy env.originalGroupExtensions commitTime proposals
      else throw e

/-- `apply_proposal_changes`. -/
def applyProposalChanges (proposals : ProposalBundle P) : Except MlsError (ProposalBundle P) := do
  let extensionsProposal ← match proposals.groupContextExtensions.head? with
    | none => pure none
    | some p =>
        match env.requiredCapabilities p.proposal with
        | .ok () => pure (some p)
        | .error e => if strategy.ignore p.isByReference then pure none else throw e
  match extensionsProposal with
  | some p => env.applyProposalsWithNewCapabilities strategy commitTime proposals p
  | none =>
      let proposals := { proposals with groupContextExtensions := [] }
      env.applyTreeChanges strategy env.originalGroupExtensions commitTime proposals

end ProposalApplier

/-- The stages of `apply_proposals_from_member` through `filter_out_external_init`. -/
def filterProposalsFromMember (env : ProposalApplier P) (strategy : FilterStrategy)
    (commitSender : LeafIndex) (proposals : ProposalBundle P) (commitTime : Option MlsTime) :
    Except MlsError (ProposalBundle P) := do
  let proposals ← filterOutInvalidProposers strategy proposals
  let proposals ← filterOutUpdateForCommitter strategy commitSender proposals
  let updateSenders ← proposals.updates.mapM leafIndexOfUpdateSender
  let proposals := { proposals with updateSenders := updateSenders }
  let proposals ← filterOutRemovalOfCommitter strategy commitSender proposals
  let proposals ← filterOutInvalidPsks env strategy proposals
  let proposals ← filterOutInvalidGroupExtensions env strategy proposals commitTime
  let proposals ← filterOutExtraGroupContextExtensions strategy proposals
  let proposals ← filterOutInvalidReinit strategy proposals env.protocolVersion
  let proposals ← filterOutReinitIfOtherProposals strategy.isIgnore proposals
  filterOutExternalInit strategy proposals

/-- `apply_proposals_from_member`, up to the hand-over to `batch_edit`. -/
def applyProposalsFromMember (env : ProposalApplier P) (strategy : FilterStrategy)
    (commitSender : LeafIndex) (proposals : ProposalBundle P) (commitTime : Option MlsTime) :
    Except MlsError (ProposalBundle P) := do
  let proposals ← filterProposalsFromMember env strategy commitSender proposals commitTime
  env.applyProposalChanges strategy commitTime proposals

end MlsRs.ProposalFilter
