import MlsRs.ProposalFilter.Stages

/-!
# What the filter guarantees of the proposals it applies

The chain of `apply_proposals_from_member`, up to the hand-over to
`batch_edit`, keeps three invariants, each assembled from the stage
specifications:

* `Shrinks`: every per-type list of the output is the input's list with only
  by-reference proposals deleted, and only under `IgnoreByRef`;
* `Paired`: from the assignment of `update_senders` on, every Update is in
  step with its sender's leaf index;
* `Applied`: every proposal that survives passed every check that applies to
  it, under the group extensions in use.

Every postcondition a stage establishes is a property of single proposals or a
bound on a list, so it survives the later stages, which only delete.
-/

namespace MlsRs.ProposalFilter

variable {P : Payloads}

/-- What the stages of `apply_proposals_from_member` leave true of the
proposals they keep. -/
structure Filtered (env : ProposalApplier P) (commitSender : LeafIndex)
    (commitTime : Option MlsTime) (proposals : ProposalBundle P) : Prop where
  /-- Every proposal of a standard type is allowed for its sender and origin. -/
  allowedProposers : ∀ kind, kind ≠ .custom → ∀ p ∈ proposals.get kind,
    proposerCanPropose p.sender (kind.proposalType p.proposal) p.isByReference = .ok ()
  noCommitterUpdate : ∀ p ∈ proposals.updates, p.sender ≠ .member commitSender
  noCommitterRemoval : ∀ p ∈ proposals.removals, p.proposal.toRemove ≠ commitSender
  validPsks : ∀ p ∈ proposals.psks, env.pskCheck p.proposal.psk = .ok ()
  validGroupExtensions : ∀ p ∈ proposals.groupContextExtensions,
    env.externalSendersCheck p.proposal commitTime = .ok ()
  atMostOneGroupContextExtensions : proposals.groupContextExtensions.length ≤ 1
  validReinitVersions : ∀ p ∈ proposals.reinitializations, env.protocolVersion ≤ p.proposal.version
  /-- No ReInit stands beside a proposal of another type. -/
  reinitAlone : proposals.reinitializations = [] ∨ ∀ kind, kind ≠ .reInit → proposals.get kind = []
  noExternalInit : proposals.externalInitializations = []

/-- The postconditions of the stages survive any deletion of proposals. -/
theorem Filtered.shrink {env : ProposalApplier P} {commitSender : LeafIndex}
    {commitTime : Option MlsTime} {strategy : FilterStrategy} {before after : ProposalBundle P}
    (filtered : Filtered env commitSender commitTime before) (shrinks : Shrinks strategy before after) :
    Filtered env commitSender commitTime after where
  allowedProposers kind notCustom := shrinks.forall_mem kind (filtered.allowedProposers kind notCustom)
  noCommitterUpdate := shrinks.forall_mem .update filtered.noCommitterUpdate
  noCommitterRemoval := shrinks.forall_mem .remove filtered.noCommitterRemoval
  validPsks := shrinks.forall_mem .psk filtered.validPsks
  validGroupExtensions := shrinks.forall_mem .groupContextExtensions filtered.validGroupExtensions
  atMostOneGroupContextExtensions :=
    (shrinks .groupContextExtensions).sublist.length_le.trans filtered.atMostOneGroupContextExtensions
  validReinitVersions := shrinks.forall_mem .reInit filtered.validReinitVersions
  reinitAlone := filtered.reinitAlone.imp
    (fun (none : before.reinitializations = []) =>
      List.sublist_nil.mp (none ▸ (shrinks .reInit).sublist))
    (fun (others : ∀ kind, kind ≠ .reInit → before.get kind = []) kind other =>
      List.sublist_nil.mp (others kind other ▸ (shrinks kind).sublist))
  noExternalInit := List.sublist_nil.mp (filtered.noExternalInit ▸ (shrinks .externalInit).sublist)

/-- What `validate_new_nodes` leaves true under the group extensions it ran
with. -/
structure NodesValid (env : ProposalApplier P) (commitTime : Option MlsTime)
    (groupExtensionsInUse : P.ExtensionList) (proposals : ProposalBundle P) : Prop where
  requiredCapabilities : env.requiredCapabilities groupExtensionsInUse = .ok ()
  /-- Every Update passed leaf validation, extension support and the successor
  check, against the old leaf of the member that sent it. -/
  validUpdates : ∀ p ∈ proposals.updates, ∃ senderIndex oldLeaf, p.sender = .member senderIndex ∧
    env.getLeafNode senderIndex = .ok oldLeaf ∧
    env.updateResult groupExtensionsInUse commitTime p senderIndex oldLeaf = .ok ()
  validAdditions : ∀ p ∈ proposals.additions, env.addResult groupExtensionsInUse commitTime p = .ok ()

/-- What the filter guarantees of the bundle it hands to `batch_edit`. -/
structure Applied (env : ProposalApplier P) (commitSender : LeafIndex)
    (commitTime : Option MlsTime) (proposals : ProposalBundle P) : Prop where
  filtered : Filtered env commitSender commitTime proposals
  paired : Paired proposals
  nodesValid : NodesValid env commitTime (env.extensionsInUse proposals) proposals
  newCapabilities : ∀ p ∈ proposals.groupContextExtensions.head?,
    env.newCapabilitiesSupported p.proposal proposals = .ok ()

section Chain

variable {env : ProposalApplier P} {strategy : FilterStrategy} {commitSender : LeafIndex}
  {commitTime : Option MlsTime} {before after : ProposalBundle P}

/-- The filter stages shrink the bundle, pair every Update with its sender and
leave the bundle `Filtered`. -/
theorem filterProposalsFromMember_spec
    (run : filterProposalsFromMember env strategy commitSender before commitTime = .ok after) :
    Shrinks strategy before after ∧ Paired after ∧ Filtered env commitSender commitTime after := by
  simp only [filterProposalsFromMember, bind_eq_ok] at run
  obtain ⟨b1, proposers, b2, committerUpdate, senders, assigned, b4, committerRemoval, b5, psks,
    b6, extensions, b7, extra, b8, versions, b9, alone, externalInit⟩ := run
  rw [filterOutInvalidProposers_eq] at proposers
  obtain ⟨s1, allowed⟩ := foldlM_proposers_spec _ proposers
  have r2 := filterOutUpdateForCommitter_eq_ok.mp committerUpdate
  have s3 := Shrinks.with_updateSenders strategy b2 senders
  have r4 := filterOutRemovalOfCommitter_eq_ok.mp committerRemoval
  have r5 := filterOutInvalidPsks_eq_ok.mp psks
  have r6 := filterOutInvalidGroupExtensions_eq_ok.mp extensions
  obtain ⟨s7, oneExtension, mask, retained⟩ := filterOutExtraGroupContextExtensions_spec extra
  have r8 := filterOutInvalidReinit_eq_ok.mp versions
  obtain ⟨s9, paired9, alone9⟩ := filterOutReinitIfOtherProposals_shrinks alone
  have r10 := filterOutExternalInit_eq_ok.mp externalInit
  -- what every later stage deletes, from each intermediate bundle on
  have from9 := r10.checked.1
  have from7 := r8.checked.1.trans (s9.trans from9)
  have from5 := r6.checked.1.trans (s7.trans from7)
  have from4 := r5.checked.1.trans from5
  have from1 := r2.checked.1.trans (s3.trans (r4.checked.1.trans from4))
  have paired7 : Paired b7 :=
    retained ▸ (r6.paired (r5.paired (r4.paired (paired_of_mapM assigned)))).retain _ mask
  refine ⟨s1.trans from1, r10.paired (paired9 (r8.paired paired7)), ?_⟩
  exact {
    allowedProposers := fun kind notCustom p member =>
      allowed _ (mem_proposerChecks notCustom p.proposal) p ((from1 kind).sublist.subset member)
    noCommitterUpdate := (s3.trans (r4.checked.1.trans from4)).forall_mem .update fun p member => by
      simpa using require_eq_ok.mp (r2.checked.2 p member)
    noCommitterRemoval := from4.forall_mem .remove fun p member => by
      simpa using require_eq_ok.mp (r4.checked.2 p member)
    validPsks := from5.forall_mem .psk r5.checked.2
    validGroupExtensions := (s7.trans from7).forall_mem .groupContextExtensions r6.checked.2
    atMostOneGroupContextExtensions :=
      (from7 .groupContextExtensions).sublist.length_le.trans oneExtension
    validReinitVersions := (s9.trans from9).forall_mem .reInit fun p member => by
      simpa using require_eq_ok.mp (r8.checked.2 p member)
    reinitAlone := alone9.imp
      (fun (none : b9.reinitializations = []) =>
        List.sublist_nil.mp (none ▸ (from9 .reInit).sublist))
      (fun (others : ∀ kind, kind ≠ .reInit → b9.get kind = []) kind other =>
        List.sublist_nil.mp (others kind other ▸ (from9 kind).sublist))
    noExternalInit := List.eq_nil_iff_forall_not_mem.mpr fun p member => by
      cases r10.checked.2 p member }

theorem mem_head?_of_length_le_one {α : Type} {entries : List α} (short : entries.length ≤ 1)
    {p : α} (member : p ∈ entries) : p ∈ entries.head? := by
  match entries, short, member with
  | [_], _, .head _ => rfl

/-- `apply_proposal_changes`, on what the filter stages leave, shrinks the
bundle further and returns one that is `Applied`. -/
theorem applyProposalChanges_applied (filtered : Filtered env commitSender commitTime before)
    (paired : Paired before) (run : env.applyProposalChanges strategy commitTime before = .ok after) :
    Shrinks strategy before after ∧ Applied env commitSender commitTime after := by
  obtain ⟨validated, choice, nodes, supported⟩ := env.applyProposalChanges_spec strategy commitTime run
  have toValidated : Shrinks strategy before validated := by
    rcases choice with rfl | ⟨rfl, ignored⟩
    · exact Shrinks.refl _ _
    · exact Shrinks.set_nil .groupContextExtensions fun p member =>
        ignored p (mem_head?_of_length_le_one filtered.atMostOneGroupContextExtensions member)
  have pairedValidated : Paired validated := by
    rcases choice with rfl | ⟨rfl, -⟩ <;> exact paired
  obtain ⟨capabilities, middle, updates, additions⟩ :=
    (env.validateNewNodes_eq_ok strategy _ commitTime pairedValidated).mp nodes
  have toAfter : Shrinks strategy validated after :=
    (updates.shrinks fun _ => env.ignore_of_updateCheck_eq_ok_false strategy _ commitTime).trans
      additions.checked.1
  have sameUpdates : after.get .update = middle.get .update := additions.get_of_ne (by decide)
  have sameExtensions : after.groupContextExtensions = validated.groupContextExtensions :=
    (additions.get_of_ne (by decide : ProposalKind.groupContextExtensions ≠ .add)).trans
      (updates.get_of_ne (by decide))
  have inUse : env.extensionsInUse after = env.extensionsInUse validated := by
    simp only [ProposalApplier.extensionsInUse, sameExtensions]
  refine ⟨toValidated.trans toAfter, filtered.shrink (toValidated.trans toAfter),
    additions.paired (updates.paired pairedValidated), ?_, sameExtensions ▸ supported⟩
  rw [inUse]
  exact {
    requiredCapabilities := capabilities
    validUpdates := fun p member => updates.forall_mem
      (fun _ => env.updateCheck_eq_ok_true strategy _ commitTime) p (sameUpdates ▸ member)
    validAdditions := additions.checked.2 }

/-- The whole chain, up to the hand-over to `batch_edit`, shrinks the bundle
and returns one that is `Applied`. -/
theorem applyProposalsFromMember_applied
    (run : applyProposalsFromMember env strategy commitSender before commitTime = .ok after) :
    Shrinks strategy before after ∧ Applied env commitSender commitTime after := by
  rw [applyProposalsFromMember, bind_eq_ok] at run
  obtain ⟨filteredBundle, filtering, changes⟩ := run
  obtain ⟨shrinks, paired, filtered⟩ := filterProposalsFromMember_spec filtering
  obtain ⟨shrinks', applied⟩ := applyProposalChanges_applied filtered paired changes
  exact ⟨shrinks.trans shrinks', applied⟩

end Chain

/-! ## A group whose every outside check passes -/

/-- Proposal contents with no structure. -/
def unitPayloads : Payloads where
  LeafNode := Unit
  KeyPackage := Unit
  leafNode _ := ()
  PreSharedKeyID := Unit
  ExtensionList := Unit

/-- A group at protocol version 1 in which every check made outside this
repository passes. -/
def acceptingApplier : ProposalApplier unitPayloads where
  protocolVersion := 1
  groupId := []
  originalGroupExtensions := ()
  getLeafNode _ := .ok ()
  pskCheck _ := .ok ()
  externalSendersCheck _ _ := .ok ()
  requiredCapabilities _ := .ok ()
  checkIfValid _ _ _ := .ok ()
  leafSupportsExtensions _ _ := .ok ()
  validSuccessor _ _ := .ok true
  validateKeyPackageProperties _ _ := .ok ()
  newCapabilitiesSupported _ _ := .ok ()

/-- The bundle with no proposals. -/
def ProposalBundle.empty : ProposalBundle P := ⟨[], [], [], [], [], [], [], [], []⟩

/-- A commit by member 0 holding member 1's Update by reference, an Add by
reference from a new member's commit, which no sender may make, and member 0's
own Remove of member 2 by value. -/
def sampleCommit : ProposalBundle unitPayloads :=
  { ProposalBundle.empty with
    additions := [⟨⟨()⟩, .newMemberCommit, .byReference⟩]
    updates := [⟨⟨()⟩, .member 1, .byReference⟩]
    removals := [⟨⟨2⟩, .member 0, .byValue⟩] }

/-- What member 0 applies of `sampleCommit` under `IgnoreByRef`: the Add is
dropped and the Update is paired with member 1. -/
def sampleApplied : ProposalBundle unitPayloads :=
  { sampleCommit with additions := [], updateSenders := [1] }

/-! ## The guarantees of the filter -/

section Guarantees

variable {env : ProposalApplier P} {strategy : FilterStrategy} {commitSender : LeafIndex}
  {commitTime : Option MlsTime} {before after : ProposalBundle P}

/-- A commit by member 0 holding its own custom proposal of type `0xF000`, by
value. -/
def customFromCommitter : ProposalBundle unitPayloads :=
  { ProposalBundle.empty with customProposals := [⟨⟨⟨0xF000⟩⟩, .member 0, .byValue⟩] }

end Guarantees

end MlsRs.ProposalFilter
