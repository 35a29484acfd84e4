import MlsRs.ProposalFilter.Invariants

/-!
# The two filter strategies against each other

A committer runs the filter under `IgnoreByRef`, dropping the by-reference
proposals that fail; a receiver runs it under `IgnoreNone`.  This module
relates the two runs:

* what the committer's run returns is `Applied`, and the filter returns an
  `Applied` bundle unchanged under either strategy, so the receiver's strict
  run accepts the committer's output as it is;
* by-reference proposals can make the committer's run fail, through the two
  stages that look at several proposals at once (a by-reference
  GroupContextExtensions proposal ahead of the by-value one, a by-reference
  proposal beside a by-value ReInit); without those two shapes they are only
  ever dropped;
* `filter_out_reinit_if_other_proposals` counts ReInits as "other proposals"
  of none, so two ReInits pass together.
-/

namespace MlsRs.ProposalFilter

variable {P : Payloads}

/-! ## An applied bundle goes through the filter unchanged -/

section Rerun

variable {env : ProposalApplier P} {strategy : FilterStrategy} {commitSender : LeafIndex}
  {commitTime : Option MlsTime} {proposals : ProposalBundle P}

/-- The proposer checks of `filter_out_invalid_proposers`, read off `Filtered`. -/
theorem Filtered.allowed (filtered : Filtered env commitSender commitTime proposals) :
    ∀ check ∈ proposerChecks, ∀ p ∈ proposals.get check.1,
      proposerCanPropose p.sender check.2 p.isByReference = .ok () := by
  intro check member p mem
  simp only [proposerChecks, List.mem_cons, List.mem_singleton, List.not_mem_nil, or_false] at member
  rcases member with rfl | rfl | rfl | rfl | rfl | rfl | rfl <;>
    exact filtered.allowedProposers _ (by decide) p mem

theorem filterOutInvalidProposers_of_filtered
    (filtered : Filtered env commitSender commitTime proposals) :
    filterOutInvalidProposers strategy proposals = .ok proposals := by
  rw [filterOutInvalidProposers_eq]
  exact foldlM_proposers_self _ filtered.allowed

theorem filterOutUpdateForCommitter_of_filtered
    (filtered : Filtered env commitSender commitTime proposals) :
    filterOutUpdateForCommitter strategy commitSender proposals = .ok proposals :=
  filterOutUpdateForCommitter_eq_ok.mpr <| RetainedBy.self_of_checked fun p member => by
    simpa using filtered.noCommitterUpdate p member

/-- The filter stages return a filtered, paired bundle unchanged. -/
theorem filterProposalsFromMember_of_filtered (filtered : Filtered env commitSender commitTime proposals)
    (paired : Paired proposals) :
    filterProposalsFromMember env strategy commitSender proposals commitTime = .ok proposals := by
  have proposers : filterOutInvalidProposers strategy proposals = .ok proposals :=
    filterOutInvalidProposers_of_filtered filtered
  have updates : filterOutUpdateForCommitter strategy commitSender proposals = .ok proposals :=
    filterOutUpdateForCommitter_of_filtered filtered
  have removals : filterOutRemovalOfCommitter strategy commitSender proposals = .ok proposals :=
    filterOutRemovalOfCommitter_eq_ok.mpr <| RetainedBy.self_of_checked fun p member => by
      simpa using filtered.noCommitterRemoval p member
  have psks : filterOutInvalidPsks env strategy proposals = .ok proposals :=
    filterOutInvalidPsks_eq_ok.mpr <| RetainedBy.self_of_checked filtered.validPsks
  have extensions : filterOutInvalidGroupExtensions env strategy proposals commitTime = .ok proposals :=
    filterOutInvalidGroupExtensions_eq_ok.mpr <| RetainedBy.self_of_checked filtered.validGroupExtensions
  have versions : filterOutInvalidReinit strategy proposals env.protocolVersion = .ok proposals :=
    filterOutInvalidReinit_eq_ok.mpr <| RetainedBy.self_of_checked fun p member => by
      simpa using filtered.validReinitVersions p member
  have alone : filterOutReinitIfOtherProposals strategy.isIgnore proposals = .ok proposals := by
    rcases filtered.reinitAlone with none | others
    · exact filterOutReinitIfOtherProposals_of_nil none
    · exact filterOutReinitIfOtherProposals_of_only
        ((ProposalBundle.length_le_reinitializations_iff _).mpr others)
  have externalInit : filterOutExternalInit strategy proposals = .ok proposals :=
    filterOutExternalInit_eq_ok.mpr <| RetainedBy.self_of_checked fun p member => by
      simp [filtered.noExternalInit] at member
  simp only [filterProposalsFromMember, proposers, updates, ok_bind,
    mapM_leafIndexOfUpdateSender_of_paired paired, removals, psks, extensions,
    filterOutExtraGroupContextExtensions_of_length_le_one filtered.atMostOneGroupContextExtensions,
    versions, alone, externalInit]

theorem updateCheck_of_valid {groupExtensionsInUse : P.ExtensionList}
    {p : ProposalInfo (UpdateProposal P)}
    (valid : ∃ senderIndex oldLeaf, p.sender = .member senderIndex ∧
      env.getLeafNode senderIndex = .ok oldLeaf ∧
      env.updateResult groupExtensionsInUse commitTime p senderIndex oldLeaf = .ok ()) :
    env.updateCheck strategy groupExtensionsInUse commitTime p = .ok true := by
  obtain ⟨senderIndex, oldLeaf, sender, old, result⟩ := valid
  simp only [ProposalApplier.updateCheck, ProposalApplier.updateVerdict,
    leafIndexOfUpdateSender_eq_ok.mpr sender, old, result, ok_bind]
  rfl

/-- `validate_new_nodes` returns a paired bundle whose new leaves are valid
unchanged. -/
theorem validateNewNodes_of_nodesValid {groupExtensionsInUse : P.ExtensionList}
    (paired : Paired proposals) (valid : NodesValid env commitTime groupExtensionsInUse proposals) :
    env.validateNewNodes strategy groupExtensionsInUse commitTime proposals = .ok proposals :=
  (env.validateNewNodes_eq_ok strategy groupExtensionsInUse commitTime paired).mpr
    ⟨valid.requiredCapabilities, proposals,
      RetainedBy.self fun p member => updateCheck_of_valid (valid.validUpdates p member),
      RetainedBy.self_of_checked valid.validAdditions⟩

/-- `apply_proposal_changes` returns an applied bundle unchanged. -/
theorem applyProposalChanges_of_applied (applied : Applied env commitSender commitTime proposals) :
    env.applyProposalChanges strategy commitTime proposals = .ok proposals := by
  have valid := applied.nodesValid
  unfold ProposalApplier.applyProposalChanges
  match extensions : proposals.groupContextExtensions, applied.filtered.atMostOneGroupContextExtensions with
  | [], _ =>
      have cleared : { proposals with groupContextExtensions := [] } = proposals := by rw [← extensions]
      simp only [List.head?_nil, pure_eq_ok_self, ok_bind, cleared]
      exact validateNewNodes_of_nodesValid applied.paired
        (by simpa [ProposalApplier.extensionsInUse, extensions] using valid)
  | [first], _ =>
      have inUse : env.extensionsInUse proposals = first.proposal := by
        simp [ProposalApplier.extensionsInUse, extensions]
      rw [inUse] at valid
      simp only [List.head?_cons, valid.requiredCapabilities, pure_eq_ok_self, ok_bind,
        ProposalApplier.applyProposalsWithNewCapabilities, ProposalApplier.applyTreeChanges,
        validateNewNodes_of_nodesValid applied.paired valid,
        applied.newCapabilities first (by simp [extensions])]

/-- The whole chain returns an applied bundle unchanged, under either
strategy. -/
theorem applyProposalsFromMember_of_applied (applied : Applied env commitSender commitTime proposals) :
    applyProposalsFromMember env strategy commitSender proposals commitTime = .ok proposals := by
  rw [applyProposalsFromMember, filterProposalsFromMember_of_filtered applied.filtered applied.paired,
    ok_bind]
  exact applyProposalChanges_of_applied applied

/-- A receiver that drops nothing accepts, unchanged, what a committer that
drops failing by-reference proposals applied. -/
theorem strict_rerun_accepts_lenient_output {before after : ProposalBundle P}
    (run : applyProposalsFromMember env .ignoreByRef commitSender before commitTime = .ok after) :
    applyProposalsFromMember env .ignoreNone commitSender after commitTime = .ok after :=
  applyProposalsFromMember_of_applied (applyProposalsFromMember_applied run).2

theorem sampleApplied_accepted_strictly :
    applyProposalsFromMember acceptingApplier .ignoreNone 0 sampleApplied none = .ok sampleApplied :=
  strict_rerun_accepts_lenient_output
    (show applyProposalsFromMember acceptingApplier .ignoreByRef 0 sampleCommit none =
      .ok sampleApplied from rfl)

/-- The filter stages on a filtered bundle only fill in `update_senders`. -/
theorem filterProposalsFromMember_of_filtered_with_senders {senders : List LeafIndex}
    (filtered : Filtered env commitSender commitTime proposals)
    (paired : Paired { proposals with updateSenders := senders }) :
    filterProposalsFromMember env strategy commitSender proposals commitTime =
      .ok { proposals with updateSenders := senders } := by
  have withSenders :
      Filtered env commitSender commitTime { proposals with updateSenders := senders } :=
    filtered.shrink (Shrinks.with_updateSenders strategy proposals senders)
  rw [← filterProposalsFromMember_of_filtered withSenders paired]
  simp only [filterProposalsFromMember, filterOutInvalidProposers_of_filtered filtered,
    filterOutInvalidProposers_of_filtered withSenders,
    filterOutUpdateForCommitter_of_filtered filtered,
    filterOutUpdateForCommitter_of_filtered withSenders, ok_bind]
  rfl

/-- The whole chain returns a bundle that is `Applied` once its Updates are
paired, whatever `update_senders` it was given. -/
theorem applyProposalsFromMember_of_applied_with_senders {senders : List LeafIndex}
    (applied : Applied env commitSender commitTime { proposals with updateSenders := senders }) :
    applyProposalsFromMember env strategy commitSender proposals commitTime =
      .ok { proposals with updateSenders := senders } := by
  have filtered : Filtered env commitSender commitTime proposals :=
    applied.filtered.shrink (Shrinks.with_updateSenders strategy _ proposals.updateSenders)
  rw [applyProposalsFromMember,
    filterProposalsFromMember_of_filtered_with_senders filtered applied.paired, ok_bind]
  exact applyProposalChanges_of_applied applied

end Rerun

/-! ## What a receiver accepts -/

section Acceptance

variable {env : ProposalApplier P} {commitSender : LeafIndex} {commitTime : Option MlsTime}
  {before after : ProposalBundle P}

/-- A strict run keeps every proposal and returns an `Applied` bundle. -/
theorem applied_of_strict_run
    (run : applyProposalsFromMember env .ignoreNone commitSender before commitTime = .ok after) :
    Applied env commitSender commitTime after ∧
      after = { before with updateSenders := after.updateSenders } := by
  obtain ⟨shrinks, applied⟩ := applyProposalsFromMember_applied run
  exact ⟨applied,
    ProposalBundle.eq_with_updateSenders_of_get _ fun kind => (shrinks kind).eq_of_ignoreNone⟩

/-- A receiver's `IgnoreNone` run accepts exactly the bundles that are already
`Applied` once their Updates are paired with their senders, and returns them
with only `update_senders` filled in; a committer's `IgnoreByRef` run returns
the same bundle from them. -/
theorem receiver_accepts_exactly_applied :
    (applyProposalsFromMember env .ignoreNone commitSender before commitTime = .ok after ↔
      Applied env commitSender commitTime after ∧
        after = { before with updateSenders := after.updateSenders }) ∧
    (applyProposalsFromMember env .ignoreNone commitSender before commitTime = .ok after →
      applyProposalsFromMember env .ignoreByRef commitSender before commitTime = .ok after) := by
  have accepted : ∀ strategy, Applied env commitSender commitTime after →
      after = { before with updateSenders := after.updateSenders } →
      applyProposalsFromMember env strategy commitSender before commitTime = .ok after :=
    fun _ applied same => by
      rw [same] at applied ⊢
      exact applyProposalsFromMember_of_applied_with_senders applied
  exact ⟨⟨applied_of_strict_run, fun ⟨applied, same⟩ => accepted _ applied same⟩,
    fun run => accepted _ (applied_of_strict_run run).1 (applied_of_strict_run run).2⟩

end Acceptance

/-! ## ReInits are not other proposals to each other -/

/-- A commit by member 0 holding two ReInits of its own by value, for protocol
version 1. -/
def reinitPair : ProposalBundle unitPayloads :=
  { ProposalBundle.empty with
    reinitializations := [⟨⟨1⟩, .member 0, .byValue⟩, ⟨⟨1⟩, .member 0, .byValue⟩] }

/-- Under either strategy the filter applies both ReInits of `reinitPair`, a
bundle of two proposals that holds a ReInit. -/
theorem reinit_pair_passes_filter :
    (∀ strategy, filterProposalsFromMember acceptingApplier strategy 0 reinitPair none = .ok reinitPair) ∧
      reinitPair.reinitializations.length = 2 ∧ reinitPair.length = 2 :=
  ⟨fun strategy => by cases strategy <;> rfl, rfl, rfl⟩

/-- What the stage does guarantee: once the filter has run, a bundle that
still holds a ReInit holds no proposal of another type. -/
theorem reinit_excludes_other_types {env : ProposalApplier P} {strategy : FilterStrategy}
    {commitSender : LeafIndex} {commitTime : Option MlsTime} {before after : ProposalBundle P}
    (run : filterProposalsFromMember env strategy commitSender before commitTime = .ok after)
    (reinit : after.reinitializations ≠ []) :
    ∀ kind, kind ≠ .reInit → after.get kind = [] :=
  (filterProposalsFromMember_spec run).2.2.reinitAlone.resolve_left reinit

theorem reinitPair_holds_only_reinits :
    reinitPair.reinitializations ≠ [] ∧ ∀ kind, kind ≠ .reInit → reinitPair.get kind = [] :=
  ⟨List.cons_ne_nil _ _, reinit_excludes_other_types
    (show filterProposalsFromMember acceptingApplier .ignoreNone 0 reinitPair none = .ok reinitPair
      from rfl) (List.cons_ne_nil _ _)⟩

/-! ## By-reference proposals under `IgnoreByRef` -/

/-- What a successful `IgnoreByRef` run on the by-value proposals of a bundle
says of the bundle, with the two conditions under which its by-reference
proposals cannot make the run fail. -/
structure ByValueAccepted (env : ProposalApplier P) (commitSender : LeafIndex)
    (commitTime : Option MlsTime) (proposals : ProposalBundle P) : Prop where
  allowedProposers : ∀ check ∈ proposerChecks, ∀ p ∈ proposals.get check.1, p.isByValue = true →
    proposerCanPropose p.sender check.2 p.isByReference = .ok ()
  noCommitterUpdate : ∀ p ∈ proposals.updates, p.isByValue = true → p.sender ≠ .member commitSender
  noCommitterRemoval : ∀ p ∈ proposals.removals, p.isByValue = true →
    p.proposal.toRemove ≠ commitSender
  validPsks : ∀ p ∈ proposals.psks, p.isByValue = true → env.pskCheck p.proposal.psk = .ok ()
  validGroupExtensions : ∀ p ∈ proposals.groupContextExtensions, p.isByValue = true →
    env.externalSendersCheck p.proposal commitTime = .ok ()
  atMostOneByValueExtensions :
    (proposals.groupContextExtensions.filter ProposalInfo.isByValue).length ≤ 1
  /-- No by-reference extensions proposal stands ahead of a by-value one. -/
  extensionsOrder : proposals.groupContextExtensions.Pairwise fun p q =>
    p.isByReference = true → q.isByReference = true
  validReinitVersions : ∀ p ∈ proposals.reinitializations, p.isByValue = true →
    env.protocolVersion ≤ p.proposal.version
  /-- A by-value ReInit stands alone. -/
  reinitAlone : (∃ p ∈ proposals.reinitializations, p.isByValue = true) →
    ∀ kind, kind ≠ .reInit → proposals.get kind = []
  byReferenceExternalInit : ∀ p ∈ proposals.externalInitializations, p.isByReference = true

section ByReference

variable {env : ProposalApplier P} {commitSender : LeafIndex} {commitTime : Option MlsTime}
  {before after : ProposalBundle P}

theorem ByValueAccepted.shrink {strategy : FilterStrategy}
    (accepted : ByValueAccepted env commitSender commitTime before)
    (shrinks : Shrinks strategy before after) : ByValueAccepted env commitSender commitTime after where
  allowedProposers check member := shrinks.forall_mem check.1 (accepted.allowedProposers check member)
  noCommitterUpdate := shrinks.forall_mem .update accepted.noCommitterUpdate
  noCommitterRemoval := shrinks.forall_mem .remove accepted.noCommitterRemoval
  validPsks := shrinks.forall_mem .psk accepted.validPsks
  validGroupExtensions := shrinks.forall_mem .groupContextExtensions accepted.validGroupExtensions
  atMostOneByValueExtensions :=
    ((shrinks .groupContextExtensions).sublist.filter _).length_le.trans
      accepted.atMostOneByValueExtensions
  extensionsOrder := accepted.extensionsOrder.sublist (shrinks .groupContextExtensions).sublist
  validReinitVersions := shrinks.forall_mem .reInit accepted.validReinitVersions
  reinitAlone := fun ⟨p, member, byValue⟩ kind other =>
    List.sublist_nil.mp (accepted.reinitAlone
      ⟨p, (shrinks .reInit).sublist.subset member, byValue⟩ kind other ▸ (shrinks kind).sublist)
  byReferenceExternalInit := shrinks.forall_mem .externalInit accepted.byReferenceExternalInit

/-- After a by-reference extensions proposal only by-reference ones follow, and
there is at most one by-value one: then every one after the first is by
reference. -/
theorem tail_isByReference {α : Type} {entries : List (ProposalInfo α)}
    (order : entries.Pairwise fun p q => p.isByReference = true → q.isByReference = true)
    (oneByValue : (entries.filter ProposalInfo.isByValue).length ≤ 1) :
    ∀ q ∈ entries.tail, q.isByReference = true := by
  cases entries with
  | nil => simp
  | cons first rest =>
      intro q member
      cases byRef : first.isByReference
      · have firstByValue : first.isByValue = true := by simp [ProposalInfo.isByValue, byRef]
        rw [List.filter_cons_of_pos firstByValue, List.length_cons] at oneByValue
        have restNone : rest.filter ProposalInfo.isByValue = [] :=
          List.eq_nil_of_length_eq_zero (by omega)
        have noneByValue := List.filter_eq_nil_iff.mp restNone q member
        simpa [ProposalInfo.isByValue] using noneByValue
      · exact (List.pairwise_cons.mp order).1 q member byRef

/-- A successful run on the by-value proposals of `before` makes `before`
`ByValueAccepted`, under the two conditions on its by-reference proposals. -/
theorem byValueAccepted_of_run {byValueAfter : ProposalBundle P}
    (byValueRun : filterProposalsFromMember env .ignoreByRef commitSender before.byValue commitTime =
      .ok byValueAfter)
    (extensionsOrder : before.groupContextExtensions.Pairwise fun p q =>
      p.isByReference = true → q.isByReference = true)
    (reinitAlone : (∃ p ∈ before.reinitializations, p.isByValue = true) →
      ∀ kind, kind ≠ .reInit → ∀ p ∈ before.get kind, p.isByValue = true) :
    ByValueAccepted env commitSender commitTime before := by
  obtain ⟨shrinks, -, filtered⟩ := filterProposalsFromMember_spec byValueRun
  have same : ∀ kind, byValueAfter.get kind = (before.get kind).filter ProposalInfo.isByValue :=
    fun kind => by
      rw [← ProposalBundle.get_filter]
      refine (shrinks kind).eq_of_forall_isByValue fun p member => ?_
      rw [ProposalBundle.byValue, ProposalBundle.get_filter] at member
      exact (List.mem_filter.mp member).2
  have toValue : ∀ kind, ∀ p ∈ before.get kind, p.isByValue = true → p ∈ byValueAfter.get kind :=
    fun kind p member byValue => by
      rw [same]
      exact List.mem_filter.mpr ⟨member, byValue⟩
  exact {
    allowedProposers := fun check listed p member byValue =>
      filtered.allowed check listed p (toValue _ p member byValue)
    noCommitterUpdate := fun p member byValue => filtered.noCommitterUpdate p (toValue .update p member byValue)
    noCommitterRemoval := fun p member byValue =>
      filtered.noCommitterRemoval p (toValue .remove p member byValue)
    validPsks := fun p member byValue => filtered.validPsks p (toValue .psk p member byValue)
    validGroupExtensions := fun p member byValue =>
      filtered.validGroupExtensions p (toValue .groupContextExtensions p member byValue)
    atMostOneByValueExtensions := same .groupContextExtensions ▸ filtered.atMostOneGroupContextExtensions
    extensionsOrder := extensionsOrder
    validReinitVersions := fun p member byValue =>
      filtered.validReinitVersions p (toValue .reInit p member byValue)
    reinitAlone := fun ⟨p, member, byValue⟩ kind other => by
      rcases filtered.reinitAlone with none | others
      · simpa [none] using toValue .reInit p member byValue
      · have noValue := same kind ▸ others kind other
        rw [List.filter_eq_self.mpr (reinitAlone ⟨p, member, byValue⟩ kind other)] at noValue
        exact noValue
    byReferenceExternalInit := fun p member => by
      cases byRef : p.isByReference
      · have := toValue .externalInit p member (by simp [ProposalInfo.isByValue, byRef])
        simp [filtered.noExternalInit] at this
      · rfl }

/-- On a `ByValueAccepted` bundle every stage of the `IgnoreByRef` run
succeeds: what fails is by reference and is dropped. -/
theorem filterProposalsFromMember_ignoreByRef_ok (accepted : ByValueAccepted env commitSender commitTime before) :
    ∃ after, filterProposalsFromMember env .ignoreByRef commitSender before commitTime = .ok after := by
  obtain ⟨b1, proposers⟩ := foldlM_proposers_ignoreByRef proposerChecks accepted.allowedProposers
  obtain ⟨s1, allowed⟩ := foldlM_proposers_spec _ proposers
  rw [← filterOutInvalidProposers_eq] at proposers
  have a1 := accepted.shrink s1
  obtain ⟨b2, r2, s2⟩ := RetainedBy.exists_ok_of_byValue (fun _ => filterOutUpdateForCommitter_eq_ok)
    fun p member byValue => by simpa using a1.noCommitterUpdate p member byValue
  obtain ⟨senders, assigned⟩ := mapM_leafIndexOfUpdateSender_ok <|
    s2.forall_mem .update fun p member =>
      sender_of_proposerCanPropose_update (allowed (.update, .UPDATE) (by simp [proposerChecks]) p member)
  have a3 := (a1.shrink s2).shrink (Shrinks.with_updateSenders .ignoreByRef b2 senders)
  obtain ⟨b4, r4, s4⟩ := RetainedBy.exists_ok_of_byValue (fun _ => filterOutRemovalOfCommitter_eq_ok)
    fun p member byValue => by simpa using a3.noCommitterRemoval p member byValue
  have a4 := a3.shrink s4
  obtain ⟨b5, r5, s5⟩ := RetainedBy.exists_ok_of_byValue (fun _ => filterOutInvalidPsks_eq_ok) a4.validPsks
  have a5 := a4.shrink s5
  obtain ⟨b6, r6, s6⟩ := RetainedBy.exists_ok_of_byValue
    (fun _ => filterOutInvalidGroupExtensions_eq_ok) a5.validGroupExtensions
  have a6 := a5.shrink s6
  obtain ⟨mask, computed⟩ := extraGroupContextExtensionsMask_ignoreByRef
    (tail_isByReference a6.extensionsOrder a6.atMostOneByValueExtensions)
  have extra : filterOutExtraGroupContextExtensions .ignoreByRef b6 =
      .ok (b6.retain .groupContextExtensions mask) := by
    rw [filterOutExtraGroupContextExtensions, computed]
    rfl
  have a7 := a6.shrink (filterOutExtraGroupContextExtensions_spec extra).1
  obtain ⟨b8, r8, s8⟩ := RetainedBy.exists_ok_of_byValue (fun _ => filterOutInvalidReinit_eq_ok)
    fun p member byValue => by simpa using a7.validReinitVersions p member byValue
  have a8 := a7.shrink s8
  obtain ⟨b9, alone⟩ : ∃ b9,
      filterOutReinitIfOtherProposals FilterStrategy.ignoreByRef.isIgnore b8 = .ok b9 := by
    by_cases byValue : ∃ p ∈ b8.reinitializations, p.isByValue = true
    · exact ⟨b8, filterOutReinitIfOtherProposals_of_only
        ((ProposalBundle.length_le_reinitializations_iff _).mpr (a8.reinitAlone byValue))⟩
    · refine filterOutReinitIfOtherProposals_of_byRef fun p member => ?_
      simpa [ProposalInfo.isByValue] using fun isValue => byValue ⟨p, member, isValue⟩
  have a9 := a8.shrink (filterOutReinitIfOtherProposals_shrinks alone).1
  obtain ⟨b10, r10, -⟩ := RetainedBy.exists_ok_of_byValue (fun _ => filterOutExternalInit_eq_ok)
    fun p member byValue =>
      absurd (a9.byReferenceExternalInit p member) (by simpa [ProposalInfo.isByValue] using byValue)
  refine ⟨b10, ?_⟩
  simp only [filterProposalsFromMember, proposers, r2, ok_bind, assigned, r4, r5, r6, extra, r8,
    alone, r10]

/-- Under `IgnoreByRef`, by-reference proposals are only ever dropped, given
the two shapes in which they can fail the run on their own: no by-reference
GroupContextExtensions proposal stands ahead of a by-value one, and beside a
by-value ReInit every other proposal is by value.  Then, whenever the run on
the by-value proposals alone succeeds, the run on the whole bundle succeeds
too, deletes only by-reference proposals and keeps every by-value one. -/
theorem by_reference_proposals_only_dropped {byValueAfter : ProposalBundle P}
    (byValueRun : filterProposalsFromMember env .ignoreByRef commitSender before.byValue commitTime =
      .ok byValueAfter)
    (extensionsOrder : before.groupContextExtensions.Pairwise fun p q =>
      p.isByReference = true → q.isByReference = true)
    (reinitAlone : (∃ p ∈ before.reinitializations, p.isByValue = true) →
      ∀ kind, kind ≠ .reInit → ∀ p ∈ before.get kind, p.isByValue = true) :
    ∃ after, filterProposalsFromMember env .ignoreByRef commitSender before commitTime = .ok after ∧
      Shrinks .ignoreByRef before after ∧
      ∀ kind, (after.get kind).filter ProposalInfo.isByValue =
        (before.get kind).filter ProposalInfo.isByValue := by
  obtain ⟨after, run⟩ := filterProposalsFromMember_ignoreByRef_ok
    (byValueAccepted_of_run byValueRun extensionsOrder reinitAlone)
  have shrinks := (filterProposalsFromMember_spec run).1
  exact ⟨after, run, shrinks, fun kind => (shrinks kind).filter_isByValue⟩

/-- `sampleCommit` meets both conditions, and its by-value Remove passes. -/
theorem sampleCommit_keeps_by_value_proposals :
    ∃ after, filterProposalsFromMember acceptingApplier .ignoreByRef 0 sampleCommit none = .ok after ∧
      Shrinks .ignoreByRef sampleCommit after ∧
      ∀ kind, (after.get kind).filter ProposalInfo.isByValue =
        (sampleCommit.get kind).filter ProposalInfo.isByValue :=
  by_reference_proposals_only_dropped
    (show filterProposalsFromMember acceptingApplier .ignoreByRef 0 sampleCommit.byValue none =
      .ok sampleCommit.byValue from rfl)
    .nil (fun ⟨p, member, _⟩ => absurd member (List.not_mem_nil p))

/-- A commit by member 0 holding member 1's GroupContextExtensions proposal by
reference ahead of its own by value. -/
def extensionsBehindByReference : ProposalBundle unitPayloads :=
  { ProposalBundle.empty with
    groupContextExtensions := [⟨(), .member 1, .byReference⟩, ⟨(), .member 0, .byValue⟩] }

/-- A commit by member 0 holding its own ReInit by value beside member 1's Add
by reference. -/
def reinitBesideByReference : ProposalBundle unitPayloads :=
  { ProposalBundle.empty with
    additions := [⟨⟨()⟩, .member 1, .byReference⟩]
    reinitializations := [⟨⟨1⟩, .member 0, .byValue⟩] }

/-- Without the two conditions a by-reference proposal fails the run that
its bundle's by-value proposals pass: the extra GroupContextExtensions
proposal flagged is the by-value one, and the Add beside the ReInit makes the
by-value ReInit the proposal rejected. -/
theorem by_reference_proposals_fail_commit :
    filterProposalsFromMember acceptingApplier .ignoreByRef 0 extensionsBehindByReference.byValue none =
        .ok extensionsBehindByReference.byValue ∧
      filterProposalsFromMember acceptingApplier .ignoreByRef 0 extensionsBehindByReference none =
        .error .moreThanOneGroupContextExtensionsProposal ∧
      filterProposalsFromMember acceptingApplier .ignoreByRef 0 reinitBesideByReference.byValue none =
        .ok reinitBesideByReference.byValue ∧
      filterProposalsFromMember acceptingApplier .ignoreByRef 0 reinitBesideByReference none =
        .error .otherProposalWithReInit :=
  ⟨rfl, rfl, rfl, rfl⟩

end ByReference

end MlsRs.ProposalFilter
