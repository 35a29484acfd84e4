import MlsRs.ProposalFilter.Invariants

/-!
# The filter deletes exactly what its stages flag

`apply_proposals_from_member` decides about each proposal in ten stages, with
index loops, strategies and early errors.  `memberFilter` says what the stages of
a successful run keep, without any of that: the proposals that pass their own
type's check and `proposer_can_propose`, only the first GroupContextExtensions
proposal of those, and no ReInit when a proposal of another type remains.

The stages of a successful run return exactly the lists of `memberFilter`
(`filterProposalsFromMember_get`); `apply_proposal_changes` then drops the
extensions proposal exactly when it is rejected, and `validate_new_nodes` keeps
exactly the Updates and Adds whose checks pass (`DeletesFlagged`).
-/

namespace MlsRs.ProposalFilter

variable {P : Payloads}

/-! ## What each stage checks -/

/-- Whether `filter_out_invalid_proposers` keeps a proposal: one of a standard
type must be allowed for its sender and origin; custom proposals are not looked
at. -/
def proposerAllows : (kind : ProposalKind) → ProposalInfo (kind.Payload P) → Bool
  | .custom, _ => true
  | kind, p => (proposerCanPropose p.sender (kind.proposalType p.proposal) p.isByReference).isOk

/-- The loops of `filter_out_invalid_proposers` keep what `proposerAllows` keeps. -/
theorem all_proposerChecks (kind : ProposalKind) (p : ProposalInfo (kind.Payload P)) :
    (proposerChecks.all fun check => check.1 != kind ||
      (proposerCanPropose p.sender check.2 p.isByReference).isOk) = proposerAllows kind p := by
  cases kind <;> simp [proposerChecks, proposerAllows, ProposalKind.proposalType, bne, instBEqOfDecidableEq]

/-- The loops of `filter_out_invalid_proposers`, run in turn, keep in each list
the proposals that every loop over that list lets through. -/
theorem foldlM_proposers_get {strategy : FilterStrategy} {before after : ProposalBundle P}
    (checks : List (ProposalKind × ProposalType))
    (run : checks.foldlM (fun proposals (kind, proposalType) =>
      filterOutInvalidProposersOf strategy kind proposalType proposals) before = .ok after)
    (kind : ProposalKind) :
    after.get kind = (before.get kind).filter fun p => checks.all fun check =>
      check.1 != kind || (proposerCanPropose p.sender check.2 p.isByReference).isOk := by
  induction checks generalizing before with
  | nil =>
      cases pure_eq_ok.mp run
      simp
  | cons check checks ih =>
      obtain ⟨checked, proposalType⟩ := check
      rw [List.foldlM_cons, bind_eq_ok] at run
      obtain ⟨middle, stage, rest⟩ := run
      have retained := filterOutInvalidProposersOf_eq_ok.mp stage
      rw [ih rest]
      by_cases same : checked = kind
      · subst same
        rw [retained.get_eq_filter, List.filter_filter]
        exact List.filter_congr fun p _ => by simp [Bool.and_comm]
      · rw [retained.get_of_ne (Ne.symm same)]
        exact List.filter_congr fun p _ => by simp [same]

/-- `proposer_can_propose` allows no ExternalInit by reference. -/
theorem proposerCanPropose_externalInit_byRef (sender : Sender) :
    proposerCanPropose sender .EXTERNAL_INIT true = .error .invalidProposalTypeForSender := by
  cases sender <;> rfl

/-- `filter_out_external_init` goes through only if every ExternalInit it is
given may be dropped, hence is by reference; `proposer_can_propose` allows none
of those, so after it no ExternalInit is left. -/
theorem externalInitializations_eq_nil {strategy : FilterStrategy} {before after : ProposalBundle P}
    (allowed : ∀ p ∈ before.externalInitializations, proposerAllows (P := P) .externalInit p = true)
    (run : filterOutExternalInit strategy before = .ok after) : before.externalInitializations = [] := by
  refine List.eq_nil_iff_forall_not_mem.mpr fun p member => ?_
  obtain ⟨keep, verdict⟩ := (filterOutExternalInit_eq_ok.mp run).exists_verdict member
  have byRef := FilterStrategy.isByReference_of_ignore
    (ignore_of_applyStrategy_eq_ok_false (false_of_applyStrategy_error verdict ▸ verdict))
  have passes := allowed p member
  simp [proposerAllows, ProposalKind.proposalType, byRef, proposerCanPropose_externalInit_byRef,
    Except.isOk, Except.toBool] at passes

/-! ## The declarative filter -/

namespace ProposalBundle

/-- The bundle with only its first GroupContextExtensions proposal. -/
def keepFirstExtensions (bundle : ProposalBundle P) : ProposalBundle P :=
  bundle.set .groupContextExtensions (bundle.groupContextExtensions.take 1)

/-- The bundle without its ReInits when a proposal of another type stands beside
them. -/
def clearReinitsBesideOthers (bundle : ProposalBundle P) : ProposalBundle P :=
  if bundle.reinitializations.length < bundle.length then bundle.set .reInit [] else bundle

theorem get_clearReinitsBesideOthers_of_ne (bundle : ProposalBundle P) {kind : ProposalKind}
    (other : kind ≠ .reInit) : bundle.clearReinitsBesideOthers.get kind = bundle.get kind := by
  unfold clearReinitsBesideOthers
  split <;> simp [other]

/-- Whether the ReInits go depends on the lists of the bundle only. -/
theorem get_clearReinitsBesideOthers_congr {bundle other : ProposalBundle P}
    (same : ∀ kind, bundle.get kind = other.get kind) (kind : ProposalKind) :
    bundle.clearReinitsBesideOthers.get kind = other.clearReinitsBesideOthers.get kind := by
  by_cases reinit : kind = .reInit
  · subst reinit
    have reinits : bundle.reinitializations = other.reinitializations := same .reInit
    simp only [clearReinitsBesideOthers, bundle.length_eq_of_get same, reinits]
    split
    · simp only [ProposalBundle.get_set_self]
    · exact same .reInit
  · rw [get_clearReinitsBesideOthers_of_ne _ reinit, get_clearReinitsBesideOthers_of_ne _ reinit, same]

end ProposalBundle

section Member

variable (env : ProposalApplier P) (commitSender : LeafIndex) (commitTime : Option MlsTime)

/-- The check each stage after `filter_out_invalid_proposers` makes of a
proposal on its own: the committer's Update and Removal, PSKs, the external
senders of an extensions proposal, ReInit versions; no ExternalInit passes a
member's commit. -/
def ownCheck : (kind : ProposalKind) → ProposalInfo (kind.Payload P) → Bool
  | .add, _ => true
  | .update, p => p.sender != .member commitSender
  | .remove, p => p.proposal.toRemove != commitSender
  | .psk, p => (env.pskCheck p.proposal.psk).isOk
  | .reInit, p => decide (p.proposal.version ≥ env.protocolVersion)
  | .externalInit, _ => false
  | .groupContextExtensions, p => (env.externalSendersCheck p.proposal commitTime).isOk
  | .custom, _ => true

/-- What the filter stages of a member's commit keep: the proposals that pass
their own checks and the proposer check, of the extensions proposals among them
only the first, and no ReInit beside a proposal of another type. -/
def memberFilter (proposals : ProposalBundle P) : ProposalBundle P :=
  (proposals.filterBy fun kind p =>
    ownCheck env commitSender commitTime kind p && proposerAllows kind p).keepFirstExtensions.clearReinitsBesideOthers

theorem memberFilter_externalInitializations (proposals : ProposalBundle P) :
    (memberFilter env commitSender commitTime proposals).externalInitializations = [] := by
  rw [← ProposalBundle.get_externalInit, memberFilter,
    ProposalBundle.get_clearReinitsBesideOthers_of_ne _ (by decide), ProposalBundle.keepFirstExtensions,
    ProposalBundle.get_set_of_ne _ (by decide), ProposalBundle.get_filterBy]
  simp [ownCheck]

end Member

/-! ## The stages refine the declarative filter -/

/-- The filter stages of a successful run keep, in every list, exactly what
`memberFilter` keeps. -/
theorem filterProposalsFromMember_get {env : ProposalApplier P} {strategy : FilterStrategy}
    {commitSender : LeafIndex} {commitTime : Option MlsTime} {before after : ProposalBundle P}
    (run : filterProposalsFromMember env strategy commitSender before commitTime = .ok after)
    (kind : ProposalKind) :
    after.get kind = (memberFilter env commitSender commitTime before).get kind := by
  simp only [filterProposalsFromMember, bind_eq_ok] at run
  obtain ⟨b1, proposers, b2, committerUpdate, senders, assigned, b4, committerRemoval, b5, psks,
    b6, extensions, b7, extra, b8, versions, b9, alone, externalInit⟩ := run
  rw [filterOutInvalidProposers_eq] at proposers
  have s1 : ∀ kind, b1.get kind = (before.get kind).filter (proposerAllows kind) := fun kind => by
    rw [foldlM_proposers_get _ proposers]
    exact List.filter_congr fun p _ => all_proposerChecks kind p
  have r2 := filterOutUpdateForCommitter_eq_ok.mp committerUpdate
  have r4 := filterOutRemovalOfCommitter_eq_ok.mp committerRemoval
  have r5 := filterOutInvalidPsks_eq_ok.mp psks
  have r6 := filterOutInvalidGroupExtensions_eq_ok.mp extensions
  obtain ⟨s7, o7⟩ := filterOutExtraGroupContextExtensions_eq_take extra
  have r8 := filterOutInvalidReinit_eq_ok.mp versions
  have s9 : b9 = b8.clearReinitsBesideOthers := filterOutReinitIfOtherProposals_eq_ite alone
  have r10 := filterOutExternalInit_eq_ok.mp externalInit
  -- no stage between the first and the last looks at the ExternalInits
  have untouched : b9.get .externalInit = b1.get .externalInit := by
    rw [s9, ProposalBundle.get_clearReinitsBesideOthers_of_ne _ (by decide), r8.get_of_ne (by decide),
      o7 _ (by decide), r6.get_of_ne (by decide), r5.get_of_ne (by decide), r4.get_of_ne (by decide),
      ProposalBundle.with_updateSenders_get, r2.get_of_ne (by decide)]
  have noExternal : (before.get .externalInit).filter (proposerAllows .externalInit) = [] := by
    rw [← s1, ← untouched]
    refine externalInitializations_eq_nil (fun p member => ?_) externalInit
    rw [← ProposalBundle.get_externalInit, untouched, s1] at member
    exact (List.mem_filter.mp member).2
  have s4 : b4.get .remove = (b2.get .remove).filter _ := r4.get_eq_filter
  have o4 : ∀ kind, kind ≠ .remove → b4.get kind = b2.get kind := fun _ other =>
    (r4.get_of_ne other).trans (b2.with_updateSenders_get senders _)
  have s7' : b7.get .groupContextExtensions = (b6.get .groupContextExtensions).take 1 := s7
  -- stage by stage, the lists of the eighth are those of the declarative filter
  have eight : ∀ kind, b8.get kind = (before.filterBy fun kind p =>
      ownCheck env commitSender commitTime kind p && proposerAllows kind p).keepFirstExtensions.get kind := by
    intro kind
    cases kind <;>
      simp only [ProposalBundle.keepFirstExtensions, ← ProposalBundle.get_groupContextExtensions,
        ProposalBundle.get_set_self, ne_eq, reduceCtorEq, not_false_eq_true,
        ProposalBundle.get_set_of_ne, ProposalBundle.get_filterBy, r8.get_eq_filter, r8.get_of_ne, s7',
        o7, r6.get_eq_filter, r6.get_of_ne, r5.get_eq_filter, r5.get_of_ne, s4, o4, r2.get_eq_filter,
        r2.get_of_ne, s1,
        noExternal, List.filter_filter, require_isOk, ownCheck, Bool.true_and, Bool.false_and,
        List.filter_false]
  have nine : ∀ kind, b9.get kind = (memberFilter env commitSender commitTime before).get kind :=
    fun kind => s9 ▸ ProposalBundle.get_clearReinitsBesideOthers_congr eight kind
  by_cases external : kind = .externalInit
  · subst external
    rw [r10.get_eq_filter]
    simp [Except.isOk, Except.toBool, memberFilter_externalInitializations]
  · rw [r10.get_of_ne external, nine]

/-! ## What the whole chain deletes -/

/-- What the chain of a member's commit deletes, each stage exactly: the filter
stages keep the lists of `memberFilter`, `apply_proposal_changes` keeps the
extensions proposal when the tree it leads to supports it and drops it when it
is rejected, and the Update and Add loops of `validate_new_nodes` keep the
entries by their checks. -/
def DeletesFlagged (env : ProposalApplier P) (strategy : FilterStrategy) (commitSender : LeafIndex)
    (commitTime : Option MlsTime) (before after : ProposalBundle P) : Prop :=
  ∃ filtered validated middle,
    (∀ kind, filtered.get kind = (memberFilter env commitSender commitTime before).get kind) ∧
    ((validated = filtered ∧ ∀ p ∈ filtered.groupContextExtensions.head?,
        env.requiredCapabilities p.proposal = .ok () ∧
          env.newCapabilitiesSupported p.proposal after = .ok ()) ∨
      (validated = filtered.set .groupContextExtensions [] ∧
        ∀ p ∈ filtered.groupContextExtensions.head?,
          env.ExtensionsRejected strategy commitTime filtered p)) ∧
    RetainedBy .update (env.updateCheck strategy (env.extensionsInUse validated) commitTime)
      validated middle ∧
    RetainedBy .add (fun p => applyStrategy strategy p.isByReference
      (env.addResult (env.extensionsInUse validated) commitTime p)) middle after

theorem applyProposalsFromMember_deletesFlagged {env : ProposalApplier P} {strategy : FilterStrategy}
    {commitSender : LeafIndex} {commitTime : Option MlsTime} {before after : ProposalBundle P}
    (run : applyProposalsFromMember env strategy commitSender before commitTime = .ok after) :
    DeletesFlagged env strategy commitSender commitTime before after := by
  rw [applyProposalsFromMember, bind_eq_ok] at run
  obtain ⟨filtered, filtering, changes⟩ := run
  obtain ⟨validated, choice, nodes⟩ := env.applyProposalChanges_choice strategy commitTime changes
  have paired : Paired validated := by
    rcases choice with ⟨rfl, -⟩ | ⟨rfl, -⟩ <;> exact (filterProposalsFromMember_spec filtering).2.1
  obtain ⟨-, middle, updates, additions⟩ :=
    (env.validateNewNodes_eq_ok strategy _ commitTime paired).mp nodes
  exact ⟨filtered, validated, middle, filterProposalsFromMember_get filtering, choice, updates, additions⟩

/-- The filter deletes only what its checks flag: each removal loop keeps
exactly the entries its verdicts keep; over the whole chain each stage deletes
exactly the proposals it flags, and every deleted proposal is a by-reference one
dropped under `IgnoreByRef`, the others keeping their order. -/
theorem filter_removes_only_flagged :
    (∀ (kind : ProposalKind) (verdict : ProposalInfo (kind.Payload P) → Except MlsError Bool)
        (bundle result : ProposalBundle P),
      removeRev kind (entryVerdict kind verdict) (bundle.get kind).length bundle = .ok result ↔
        RetainedBy kind verdict bundle result) ∧
    (∀ (env : ProposalApplier P) strategy groupExtensionsInUse commitTime
        (bundle result : ProposalBundle P), Paired bundle →
      (removeRev .update (env.validateUpdate strategy groupExtensionsInUse commitTime)
          bundle.updates.length bundle = .ok result ↔
        RetainedBy .update (env.updateCheck strategy groupExtensionsInUse commitTime) bundle result)) ∧
    (∀ (kind : ProposalKind) (verdict : ProposalInfo (kind.Payload P) → Except MlsError Bool)
        (bundle : ProposalBundle P),
      (do
        let badIndices ← collectBadIndices verdict (bundle.get kind)
        pure (removeIndices bundle kind badIndices)) = bundle.retainByType kind verdict) ∧
    ∀ (env : ProposalApplier P) strategy commitSender (before : ProposalBundle P) commitTime after,
      applyProposalsFromMember env strategy commitSender before commitTime = .ok after →
        DeletesFlagged env strategy commitSender commitTime before after ∧
        (∀ kind, Drops strategy (before.get kind) (after.get kind)) ∧
        (strategy = .ignoreNone → ∀ kind, after.get kind = before.get kind) :=
  ⟨fun _ _ _ _ => removeRev_entryVerdict_eq_ok,
    fun env strategy _ _ _ _ paired => env.removeRev_validateUpdate_eq_ok strategy _ _ paired,
    fun kind verdict bundle => collect_removeIndices_eq bundle kind verdict,
    fun _ _ _ _ _ _ run =>
      have shrinks := (applyProposalsFromMember_applied run).1
      ⟨applyProposalsFromMember_deletesFlagged run, shrinks, fun ignoreNone kind => by
        subst ignoreNone
        exact (shrinks kind).eq_of_ignoreNone⟩⟩

theorem sampleCommit_deletes_flagged :
    DeletesFlagged acceptingApplier .ignoreByRef 0 none sampleCommit sampleApplied ∧
      Drops .ignoreByRef sampleCommit.additions sampleApplied.additions :=
  have deletes := filter_removes_only_flagged.2.2.2 acceptingApplier .ignoreByRef 0 sampleCommit none
    sampleApplied rfl
  ⟨deletes.1, deletes.2.1 .add⟩

end MlsRs.ProposalFilter
