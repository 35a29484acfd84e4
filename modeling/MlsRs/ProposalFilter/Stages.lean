import MlsRs.ProposalFilter.Retain

/-!
# One specification per stage of the filter

Each stage of `apply_proposals_from_member` is given here by what it does to a
bundle, so that the invariants of the chain never unfold a stage again.

Most stages check each proposal of one type on its own and hand the result to
`apply_strategy`; they are all `RetainedBy` that verdict (`RetainedBy.checked`
says what follows: only droppable proposals leave, only passing ones stay).
The others are taken one by one: the `update_senders` assignment, the
`found` flag of `filter_out_extra_group_context_extensions`, the length test of
`filter_out_reinit_if_other_proposals`, the Update loop of `validate_new_nodes`
(which reads `update_senders`, and is shown to need of the absent
`remove::<UpdateProposal>` only `KeepsUpdatesBelow`), and the three ways
`apply_proposal_changes` picks the group extensions in use.
-/

namespace MlsRs.ProposalFilter

variable {P : Payloads}

/-! ## `apply_strategy` -/

section Strategy

variable {strategy : FilterStrategy} {byRef : Bool} {result : Except MlsError Unit}

theorem applyStrategy_eq_ok_true :
    applyStrategy strategy byRef result = .ok true ↔ result = .ok () := by
  cases result with
  | ok => simp [applyStrategy]
  | error e =>
      simp only [applyStrategy, reduceCtorEq, iff_false]
      split <;> simp

theorem ignore_of_applyStrategy_eq_ok_false
    (dropped : applyStrategy strategy byRef result = .ok false) : strategy.ignore byRef = true := by
  cases result with
  | ok => cases dropped
  | error e =>
      unfold applyStrategy at dropped
      split at dropped <;> simp_all

theorem applyStrategy_ok (strategy : FilterStrategy) (byRef : Bool) :
    applyStrategy strategy byRef (.ok ()) = .ok true := rfl

/-- A stage keeps exactly the proposals that pass its check. -/
theorem applyStrategy_eq_ok_isOk {keep : Bool}
    (computed : applyStrategy strategy byRef result = .ok keep) : keep = result.isOk := by
  cases result with
  | ok => exact (Except.ok.inj computed).symm
  | error e =>
      cases keep
      · rfl
      · cases applyStrategy_eq_ok_true.mp computed

/-- Under `IgnoreByRef` only a by-value proposal's failure is an error. -/
theorem applyStrategy_ignoreByRef_ok (checked : byRef = false → result = .ok ()) :
    ∃ keep, applyStrategy .ignoreByRef byRef result = .ok keep := by
  cases byRef
  · exact ⟨true, by rw [checked rfl]; rfl⟩
  · cases result <;> exact ⟨_, rfl⟩

end Strategy

theorem ProposalInfo.isByReference_eq_false {α : Type} {p : ProposalInfo α} :
    p.isByReference = false ↔ p.isByValue = true := by
  simp [ProposalInfo.isByValue]

/-! ## Stages that check each proposal -/

namespace RetainedBy

variable {strategy : FilterStrategy} {kind : ProposalKind}
  {check : ProposalInfo (kind.Payload P) → Except MlsError Unit} {before after : ProposalBundle P}

/-- A stage that checks each proposal of `kind` under `strategy` deletes only
proposals the strategy lets it drop, and keeps only proposals that pass. -/
theorem checked
    (retained : RetainedBy kind (fun p => applyStrategy strategy p.isByReference (check p)) before after) :
    Shrinks strategy before after ∧ ∀ p ∈ after.get kind, check p = .ok () :=
  ⟨retained.shrinks fun _ => ignore_of_applyStrategy_eq_ok_false,
    retained.forall_mem fun _ => applyStrategy_eq_ok_true.mp⟩

/-- A bundle whose proposals of `kind` all pass goes through such a stage
unchanged. -/
theorem self_of_checked (passed : ∀ p ∈ before.get kind, check p = .ok ()) :
    RetainedBy kind (fun p => applyStrategy strategy p.isByReference (check p)) before before :=
  self fun p member => by rw [passed p member]; rfl

/-- Under `IgnoreByRef` such a stage succeeds when its by-value proposals pass. -/
theorem exists_of_byValue (passed : ∀ p ∈ before.get kind, p.isByValue = true → check p = .ok ()) :
    ∃ after, RetainedBy kind (fun p => applyStrategy .ignoreByRef p.isByReference (check p)) before after :=
  exists_of_forall fun p member =>
    applyStrategy_ignoreByRef_ok fun byValue =>
      passed p member (ProposalInfo.isByReference_eq_false.mp byValue)

/-- The same for a stage given by its `RetainedBy` characterisation. -/
theorem exists_ok_of_byValue {result : Except MlsError (ProposalBundle P)}
    (spec : ∀ after, result = .ok after ↔
      RetainedBy kind (fun p => applyStrategy .ignoreByRef p.isByReference (check p)) before after)
    (passed : ∀ p ∈ before.get kind, p.isByValue = true → check p = .ok ()) :
    ∃ after, result = .ok after ∧ Shrinks .ignoreByRef before after :=
  let ⟨after, retained⟩ := exists_of_byValue passed
  ⟨after, (spec after).mpr retained, retained.checked.1⟩

/-- Such a stage keeps, in its list, exactly the proposals that pass. -/
theorem eq_retain_isOk
    (retained : RetainedBy kind (fun p => applyStrategy strategy p.isByReference (check p)) before after) :
    after = before.retain kind ((before.get kind).map fun p => (check p).isOk) := by
  obtain ⟨mask, verdicts, rfl⟩ := retained
  have same : List.Forall₂ (· = ·) ((before.get kind).map fun p => (check p).isOk) mask :=
    List.forall₂_map_left_iff.mpr (verdicts.imp fun _ _ computed =>
      (applyStrategy_eq_ok_isOk computed).symm)
  rw [List.forall₂_eq_eq_eq] at same
  rw [same]

theorem get_eq_filter
    (retained : RetainedBy kind (fun p => applyStrategy strategy p.isByReference (check p)) before after) :
    after.get kind = (before.get kind).filter fun p => (check p).isOk := by
  rw [retained.eq_retain_isOk, ProposalBundle.retain, ProposalBundle.get_modify_self, keepMask_map]

end RetainedBy

section Checked

variable {strategy : FilterStrategy} {commitSender : LeafIndex} {before after : ProposalBundle P}

theorem filterOutInvalidProposersOf_eq_ok {kind : ProposalKind} {proposalType : ProposalType} :
    filterOutInvalidProposersOf strategy kind proposalType before = .ok after ↔
      RetainedBy kind (fun p => applyStrategy strategy p.isByReference
        (proposerCanPropose p.sender proposalType p.isByReference)) before after :=
  removeRev_entryVerdict_eq_ok

/-- The proposal types whose senders `filter_out_invalid_proposers` checks, in
its order. -/
def proposerChecks : List (ProposalKind × ProposalType) :=
  [(.add, .ADD), (.update, .UPDATE), (.remove, .REMOVE), (.psk, .PSK), (.reInit, .RE_INIT),
    (.externalInit, .EXTERNAL_INIT), (.groupContextExtensions, .GROUP_CONTEXT_EXTENSIONS)]

/-- `filter_out_invalid_proposers` is its seven loops run in turn. -/
theorem filterOutInvalidProposers_eq (strategy : FilterStrategy) (proposals : ProposalBundle P) :
    filterOutInvalidProposers strategy proposals =
      proposerChecks.foldlM (fun proposals (kind, proposalType) =>
        filterOutInvalidProposersOf strategy kind proposalType proposals) proposals := by
  simp only [filterOutInvalidProposers, proposerChecks, List.foldlM_cons, List.foldlM_nil, bind_pure]

theorem mem_proposerChecks {kind : ProposalKind} (notCustom : kind ≠ .custom)
    (proposal : kind.Payload P) : (kind, kind.proposalType proposal) ∈ proposerChecks := by
  cases kind <;> first | exact absurd rfl notCustom | simp [proposerChecks, ProposalKind.proposalType]

/-- What the loops of `filter_out_invalid_proposers` leave: only droppable
proposals deleted, and every remaining proposal of a checked type allowed for
its sender and origin. -/
theorem foldlM_proposers_spec (checks : List (ProposalKind × ProposalType))
    (run : checks.foldlM (fun proposals (kind, proposalType) =>
      filterOutInvalidProposersOf strategy kind proposalType proposals) before = .ok after) :
    Shrinks strategy before after ∧ ∀ check ∈ checks, ∀ p ∈ after.get check.1,
      proposerCanPropose p.sender check.2 p.isByReference = .ok () := by
  induction checks generalizing before with
  | nil =>
      cases pure_eq_ok.mp run
      exact ⟨Shrinks.refl _ _, by simp⟩
  | cons check checks ih =>
      obtain ⟨kind, proposalType⟩ := check
      rw [List.foldlM_cons, bind_eq_ok] at run
      obtain ⟨middle, stage, rest⟩ := run
      obtain ⟨first, allowed⟩ := (filterOutInvalidProposersOf_eq_ok.mp stage).checked
      obtain ⟨later, laterAllowed⟩ := ih rest
      refine ⟨first.trans later, fun check member => ?_⟩
      rcases List.mem_cons.mp member with rfl | member
      · exact later.forall_mem kind allowed
      · exact laterAllowed check member

/-- A bundle whose proposals are all allowed goes through the loops unchanged. -/
theorem foldlM_proposers_self (checks : List (ProposalKind × ProposalType)) {bundle : ProposalBundle P}
    (allowed : ∀ check ∈ checks, ∀ p ∈ bundle.get check.1,
      proposerCanPropose p.sender check.2 p.isByReference = .ok ()) :
    checks.foldlM (fun proposals (kind, proposalType) =>
      filterOutInvalidProposersOf strategy kind proposalType proposals) bundle = .ok bundle := by
  induction checks with
  | nil => rfl
  | cons check checks ih =>
      obtain ⟨kind, proposalType⟩ := check
      have stage : filterOutInvalidProposersOf strategy kind proposalType bundle = .ok bundle :=
        filterOutInvalidProposersOf_eq_ok.mpr
          (RetainedBy.self_of_checked (allowed _ (List.mem_cons_self _ _)))
      rw [List.foldlM_cons]
      dsimp only
      rw [stage, ok_bind]
      exact ih fun check member => allowed check (List.mem_cons_of_mem _ member)

/-- Under `IgnoreByRef` the loops succeed when the by-value proposals are
allowed. -/
theorem foldlM_proposers_ignoreByRef (checks : List (ProposalKind × ProposalType))
    (allowed : ∀ check ∈ checks, ∀ p ∈ before.get check.1, p.isByValue = true →
      proposerCanPropose p.sender check.2 p.isByReference = .ok ()) :
    ∃ after, checks.foldlM (fun proposals (kind, proposalType) =>
      filterOutInvalidProposersOf .ignoreByRef kind proposalType proposals) before = .ok after := by
  induction checks generalizing before with
  | nil => exact ⟨before, rfl⟩
  | cons check checks ih =>
      obtain ⟨kind, proposalType⟩ := check
      obtain ⟨middle, stage⟩ := RetainedBy.exists_of_byValue (allowed _ (List.mem_cons_self _ _))
      obtain ⟨after, rest⟩ := ih fun check member =>
        stage.checked.1.forall_mem check.1 (allowed check (List.mem_cons_of_mem _ member))
      have first : filterOutInvalidProposersOf .ignoreByRef kind proposalType before = .ok middle :=
        filterOutInvalidProposersOf_eq_ok.mpr stage
      refine ⟨after, ?_⟩
      rw [List.foldlM_cons]
      dsimp only
      rw [first, ok_bind]
      exact rest

theorem filterOutUpdateForCommitter_eq_ok :
    filterOutUpdateForCommitter strategy commitSender before = .ok after ↔
      RetainedBy .update (fun p => applyStrategy strategy p.isByReference
        (require (p.sender != .member commitSender) .invalidCommitSelfUpdate)) before after :=
  retainByType_eq_ok

theorem filterOutRemovalOfCommitter_eq_ok :
    filterOutRemovalOfCommitter strategy commitSender before = .ok after ↔
      RetainedBy .remove (fun p => applyStrategy strategy p.isByReference
        (require (p.proposal.toRemove != commitSender) .committerSelfRemoval)) before after :=
  retainByType_eq_ok

theorem filterOutInvalidPsks_eq_ok {env : ProposalApplier P} :
    filterOutInvalidPsks env strategy before = .ok after ↔
      RetainedBy .psk (fun p => applyStrategy strategy p.isByReference (env.pskCheck p.proposal.psk))
        before after := by
  rw [filterOutInvalidPsks, ← retainByType_eq_ok]
  exact Eq.congr_left (collect_removeIndices_eq before .psk _)

theorem filterOutInvalidGroupExtensions_eq_ok {env : ProposalApplier P} {commitTime : Option MlsTime} :
    filterOutInvalidGroupExtensions env strategy before commitTime = .ok after ↔
      RetainedBy .groupContextExtensions (fun p => applyStrategy strategy p.isByReference
        (env.externalSendersCheck p.proposal commitTime)) before after := by
  rw [filterOutInvalidGroupExtensions, ← retainByType_eq_ok]
  exact Eq.congr_left (collect_removeIndices_eq before .groupContextExtensions _)

theorem filterOutInvalidReinit_eq_ok {protocolVersion : ProtocolVersion} :
    filterOutInvalidReinit strategy before protocolVersion = .ok after ↔
      RetainedBy .reInit (fun p => applyStrategy strategy p.isByReference
        (require (decide (p.proposal.version ≥ protocolVersion)) .invalidProtocolVersionInReInit))
        before after :=
  retainByType_eq_ok

theorem filterOutExternalInit_eq_ok :
    filterOutExternalInit strategy before = .ok after ↔
      RetainedBy .externalInit (fun p => applyStrategy strategy p.isByReference
        (.error .invalidProposalTypeForSender)) before after :=
  retainByType_eq_ok

end Checked

/-! ## The Update senders -/

theorem leafIndexOfUpdateSender_eq_ok {p : ProposalInfo (UpdateProposal P)} {index : LeafIndex} :
    leafIndexOfUpdateSender p = .ok index ↔ p.sender = .member index := by
  unfold leafIndexOfUpdateSender
  split <;> simp_all

/-- Only members propose Updates, and only by reference. -/
theorem sender_of_proposerCanPropose_update {sender : Sender} {byRef : Bool}
    (allowed : proposerCanPropose sender .UPDATE byRef = .ok ()) :
    ∃ index, sender = .member index := by
  cases sender <;> cases byRef <;> simp_all [proposerCanPropose, ProposalType.UPDATE,
    ProposalType.ADD, ProposalType.REMOVE, ProposalType.PSK, ProposalType.RE_INIT,
    ProposalType.EXTERNAL_INIT, ProposalType.GROUP_CONTEXT_EXTENSIONS]

/-- The assignment of `update_senders` pairs every Update with its sender. -/
theorem paired_of_mapM {proposals : ProposalBundle P} {senders : List LeafIndex}
    (assigned : proposals.updates.mapM leafIndexOfUpdateSender = .ok senders) :
    Paired { proposals with updateSenders := senders } :=
  (mapM_eq_ok.mp assigned).imp fun _ _ => leafIndexOfUpdateSender_eq_ok.mp

/-- The assignment succeeds when every Update comes from a member. -/
theorem mapM_leafIndexOfUpdateSender_ok {proposals : ProposalBundle P}
    (members : ∀ p ∈ proposals.updates, ∃ index, p.sender = .member index) :
    ∃ senders, proposals.updates.mapM leafIndexOfUpdateSender = .ok senders :=
  mapM_ok_of_forall fun p member =>
    (members p member).imp fun _ => leafIndexOfUpdateSender_eq_ok.mpr

theorem mapM_leafIndexOfUpdateSender_of_paired {proposals : ProposalBundle P}
    (paired : Paired proposals) :
    proposals.updates.mapM leafIndexOfUpdateSender = .ok proposals.updateSenders :=
  mapM_eq_ok.mpr (paired.imp fun _ _ => leafIndexOfUpdateSender_eq_ok.mpr)

/-! ## `filter_out_extra_group_context_extensions` -/

section Extra

variable {strategy : FilterStrategy} {α : Type}

/-- Once a proposal was seen, every later one fails the check. -/
theorem extraGroupContextExtensionsMask_true (entries : List (ProposalInfo α)) :
    extraGroupContextExtensionsMask strategy true entries =
      entries.mapM fun p => applyStrategy strategy p.isByReference
        (.error .moreThanOneGroupContextExtensionsProposal) := by
  induction entries with
  | nil => rfl
  | cons p entries ih =>
      rw [extraGroupContextExtensionsMask, ih, List.mapM_cons]
      rfl

/-- The first proposal passes. -/
theorem extraGroupContextExtensionsMask_cons (p : ProposalInfo α) (rest : List (ProposalInfo α)) :
    extraGroupContextExtensionsMask strategy false (p :: rest) =
      (extraGroupContextExtensionsMask strategy true rest).map (true :: ·) := by
  rw [extraGroupContextExtensionsMask]
  cases extraGroupContextExtensionsMask strategy true rest <;> rfl

theorem false_of_applyStrategy_error {byRef keep : Bool} {error : MlsError}
    (computed : applyStrategy strategy byRef (.error error) = .ok keep) : keep = false := by
  cases keep
  · rfl
  · cases applyStrategy_eq_ok_true.mp computed

/-- The mask keeps at most the first proposal, and flags the others `false`
only when the strategy lets it drop them. -/
theorem extraGroupContextExtensionsMask_spec {entries : List (ProposalInfo α)} {mask : List Bool}
    (computed : extraGroupContextExtensionsMask strategy false entries = .ok mask) :
    List.Forall₂ (fun p keep => keep = false → strategy.ignore p.isByReference = true) entries mask ∧
      (keepMask mask entries).length ≤ 1 := by
  cases entries with
  | nil =>
      cases pure_eq_ok.mp computed
      simp
  | cons first rest =>
      rw [extraGroupContextExtensionsMask_cons, extraGroupContextExtensionsMask_true,
        map_eq_ok] at computed
      obtain ⟨laterMask, later, rfl⟩ := computed
      have laterDropped := mapM_eq_ok.mp later
      have noneKept : keepMask laterMask rest = [] :=
        List.eq_nil_iff_forall_not_mem.mpr <| forall_mem_keepMask <|
          laterDropped.imp fun _ _ dropped kept => by
            cases kept.symm.trans (false_of_applyStrategy_error dropped)
      refine ⟨.cons (fun dropped => by cases dropped) (laterDropped.imp fun _ _ dropped _ =>
        ignore_of_applyStrategy_eq_ok_false (false_of_applyStrategy_error dropped ▸ dropped)), ?_⟩
      simp [keepMask, noneKept]

/-- The stage keeps at most one proposal and drops the others only when the
strategy lets it. -/
theorem filterOutExtraGroupContextExtensions_spec {before after : ProposalBundle P}
    (run : filterOutExtraGroupContextExtensions strategy before = .ok after) :
    Shrinks strategy before after ∧ after.groupContextExtensions.length ≤ 1 ∧
      ∃ mask, after = before.retain .groupContextExtensions mask := by
  rw [filterOutExtraGroupContextExtensions, bind_eq_ok] at run
  obtain ⟨mask, computed, kept⟩ := run
  cases pure_eq_ok.mp kept
  obtain ⟨flagged, atMostOne⟩ := extraGroupContextExtensionsMask_spec computed
  refine ⟨Shrinks.retain flagged, ?_, mask, rfl⟩
  simpa [ProposalBundle.retain] using atMostOne

/-- A bundle with at most one such proposal goes through unchanged. -/
theorem filterOutExtraGroupContextExtensions_of_length_le_one {before : ProposalBundle P}
    (atMostOne : before.groupContextExtensions.length ≤ 1) :
    filterOutExtraGroupContextExtensions strategy before = .ok before := by
  have allKept : extraGroupContextExtensionsMask strategy false before.groupContextExtensions =
      .ok (before.groupContextExtensions.map fun _ => true) := by
    match extensions : before.groupContextExtensions, atMostOne with
    | [], _ => rfl
    | [_], _ => rfl
  rw [filterOutExtraGroupContextExtensions, allKept, ok_bind,
    before.retain_of_forall_true _ (by simp)]
  rfl

/-- Under `IgnoreByRef` the stage succeeds when every proposal after the first
is by reference. -/
theorem extraGroupContextExtensionsMask_ignoreByRef {entries : List (ProposalInfo α)}
    (laterByRef : ∀ q ∈ entries.tail, q.isByReference = true) :
    ∃ mask, extraGroupContextExtensionsMask .ignoreByRef false entries = .ok mask := by
  cases entries with
  | nil => exact ⟨[], rfl⟩
  | cons first rest =>
      rw [extraGroupContextExtensionsMask_cons, extraGroupContextExtensionsMask_true]
      have later : ∃ laterMask, rest.mapM (fun q => applyStrategy .ignoreByRef q.isByReference
          (.error .moreThanOneGroupContextExtensionsProposal)) = .ok laterMask :=
        mapM_ok_of_forall fun q member => applyStrategy_ignoreByRef_ok fun byValue =>
          absurd (laterByRef q member) (by rw [byValue]; decide)
      obtain ⟨laterMask, later⟩ := later
      exact ⟨_, by rw [later]; rfl⟩

/-- Checks that all fail go through exactly when the strategy drops every
proposal, each flagged `false`. -/
theorem mapM_applyStrategy_error (error : MlsError) (entries : List (ProposalInfo α)) :
    entries.mapM (fun p => applyStrategy strategy p.isByReference (.error error)) =
      if ∀ p ∈ entries, strategy.ignore p.isByReference = true then
        .ok (List.replicate entries.length false)
      else .error error := by
  induction entries with
  | nil => rfl
  | cons p entries ih =>
      rw [List.mapM_cons, ih]
      simp only [List.forall_mem_cons]
      by_cases ignored : strategy.ignore p.isByReference = true
      · by_cases later : ∀ q ∈ entries, strategy.ignore q.isByReference = true
        · rw [if_pos later, if_pos ⟨ignored, later⟩]
          simp [applyStrategy, ignored, List.replicate_succ]
        · rw [if_neg later]
          simp [applyStrategy, ignored, later]
      · simp [applyStrategy, ignored]

theorem keepMask_replicate_false {β : Type} (entries : List β) :
    keepMask (List.replicate entries.length false) entries = [] := by
  induction entries with
  | nil => rfl
  | cons _ entries ih => simpa [keepMask, List.replicate_succ] using ih

/-- A successful run keeps the first extensions proposal and drops the others. -/
theorem filterOutExtraGroupContextExtensions_eq_take {before after : ProposalBundle P}
    (run : filterOutExtraGroupContextExtensions strategy before = .ok after) :
    after.groupContextExtensions = before.groupContextExtensions.take 1 ∧
      ∀ kind, kind ≠ .groupContextExtensions → after.get kind = before.get kind := by
  rw [filterOutExtraGroupContextExtensions, bind_eq_ok] at run
  obtain ⟨mask, computed, kept⟩ := run
  cases pure_eq_ok.mp kept
  refine ⟨?_, fun kind other => ProposalBundle.get_modify_of_ne _ _ other⟩
  show keepMask mask before.groupContextExtensions = _
  cases extensions : before.groupContextExtensions with
  | nil => simp
  | cons first rest =>
      rw [extensions, extraGroupContextExtensionsMask_cons, extraGroupContextExtensionsMask_true,
        mapM_applyStrategy_error] at computed
      split_ifs at computed
      · cases computed
        simp [keepMask, keepMask_replicate_false]
      · cases computed

/-- `filter_out_extra_group_context_extensions` on every bundle: it keeps the
first GroupContextExtensions proposal, whatever its origin, and goes through
only if the strategy drops every later one; otherwise it fails with
`MoreThanOneGroupContextExtensionsProposal`. -/
theorem extra_extensions_keep_first (before : ProposalBundle P) :
    filterOutExtraGroupContextExtensions strategy before =
      if ∀ p ∈ before.groupContextExtensions.tail, strategy.ignore p.isByReference = true then
        .ok { before with groupContextExtensions := before.groupContextExtensions.take 1 }
      else .error .moreThanOneGroupContextExtensionsProposal := by
  rw [filterOutExtraGroupContextExtensions]
  cases before with
  | mk additions updates updateSenders removals psks reinitializations externalInitializations
      extensions customProposals =>
    cases extensions with
    | nil => rfl
    | cons first rest =>
        simp only [extraGroupContextExtensionsMask_cons, extraGroupContextExtensionsMask_true,
          mapM_applyStrategy_error, List.tail_cons]
        split_ifs
        · simp [ProposalBundle.retain, ProposalBundle.modify, ProposalBundle.set, keepMask,
            keepMask_replicate_false]
        · rfl

end Extra

/-! ## `filter_out_reinit_if_other_proposals` -/

section Reinit

variable {filter : Bool} {before after : ProposalBundle P}

/-- The stage passes a bundle that holds nothing but ReInits; otherwise it
clears the ReInits, which are then all by reference and cleared only when
`filter` is set. -/
theorem filterOutReinitIfOtherProposals_spec
    (run : filterOutReinitIfOtherProposals filter before = .ok after) :
    (before.length ≤ before.reinitializations.length ∧ after = before) ∨
      ((∀ p ∈ before.reinitializations, p.isByReference = true ∧ filter = true) ∧
        after = { before with reinitializations := [] }) := by
  unfold filterOutReinitIfOtherProposals at run
  by_cases other : before.reinitializations.length < before.length
  · rw [if_pos (by simpa using other)] at run
    dsimp only at run
    split at run
    · cases run
    · rename_i kept
      refine .inr ⟨fun p member => ?_, (Except.ok.inj run).symm⟩
      have notByValue : p.isByValue = false := by
        by_contra byValue
        exact kept (by simp only [Bool.or_eq_true, List.any_eq_true]; exact .inl ⟨p, member, by simpa using byValue⟩)
      refine ⟨by simpa [ProposalInfo.isByValue] using notByValue, ?_⟩
      cases filter
      · exact absurd (by simp [List.isEmpty_iff, List.ne_nil_of_mem member]) kept
      · rfl
  · rw [if_neg (by simpa using other)] at run
    exact .inl ⟨Nat.le_of_not_lt other, (Except.ok.inj run).symm⟩

/-- A successful run clears the ReInits exactly when proposals of other types
stand beside them. -/
theorem filterOutReinitIfOtherProposals_eq_ite
    (run : filterOutReinitIfOtherProposals filter before = .ok after) :
    after = if before.reinitializations.length < before.length then before.set .reInit [] else before := by
  unfold filterOutReinitIfOtherProposals at run
  by_cases other : before.reinitializations.length < before.length
  · rw [if_pos (by simpa using other)] at run
    rw [if_pos other]
    dsimp only at run
    split at run
    · cases run
    · exact (Except.ok.inj run).symm
  · rw [if_neg (by simpa using other)] at run
    rw [if_neg other]
    exact (Except.ok.inj run).symm

/-- A bundle that holds nothing but ReInits passes. -/
theorem filterOutReinitIfOtherProposals_of_only
    (only : before.length ≤ before.reinitializations.length) :
    filterOutReinitIfOtherProposals filter before = .ok before := by
  unfold filterOutReinitIfOtherProposals
  rw [if_neg (by simpa using only)]

/-- A bundle without ReInits passes. -/
theorem filterOutReinitIfOtherProposals_of_nil (none : before.reinitializations = []) :
    filterOutReinitIfOtherProposals filter before = .ok before := by
  have cleared : { before with reinitializations := [] } = before := by rw [← none]
  unfold filterOutReinitIfOtherProposals
  simp [none, cleared]

/-- Under `IgnoreByRef`, a bundle whose ReInits are all by reference passes. -/
theorem filterOutReinitIfOtherProposals_of_byRef
    (byRef : ∀ p ∈ before.reinitializations, p.isByReference = true) :
    ∃ after, filterOutReinitIfOtherProposals true before = .ok after := by
  have noneByValue : (before.reinitializations.any fun p => p.isByValue) = false := by
    simpa [ProposalInfo.isByValue] using byRef
  unfold filterOutReinitIfOtherProposals
  dsimp only
  split
  · rw [if_neg (by simp [noneByValue])]
    exact ⟨_, rfl⟩
  · exact ⟨_, rfl⟩

theorem FilterStrategy.ignore_of_isIgnore {strategy : FilterStrategy} {byRef : Bool}
    (isIgnore : strategy.isIgnore = true) (byReference : byRef = true) : strategy.ignore byRef = true := by
  cases strategy <;> simp_all [FilterStrategy.isIgnore, FilterStrategy.ignore]

/-- Run with `strategy.is_ignore()`, the stage shrinks the bundle, keeps the
Updates paired, and leaves no ReInit beside another proposal. -/
theorem filterOutReinitIfOtherProposals_shrinks {strategy : FilterStrategy}
    (run : filterOutReinitIfOtherProposals strategy.isIgnore before = .ok after) :
    Shrinks strategy before after ∧ (Paired before → Paired after) ∧
      (after.reinitializations = [] ∨ ∀ kind, kind ≠ .reInit → after.get kind = []) := by
  rcases filterOutReinitIfOtherProposals_spec run with ⟨only, rfl⟩ | ⟨cleared, rfl⟩
  · exact ⟨Shrinks.refl _ _, id, .inr ((ProposalBundle.length_le_reinitializations_iff _).mp only)⟩
  · refine ⟨Shrinks.set_nil .reInit fun p member => ?_, id, .inl rfl⟩
    obtain ⟨byRef, isIgnore⟩ := cleared p member
    exact FilterStrategy.ignore_of_isIgnore isIgnore byRef

end Reinit

/-! ## `validate_new_nodes` -/

/-- Removing entry `j` leaves the Updates and the senders below `j` where they
were.  `bundle.rs`, which holds `remove::<UpdateProposal>`, is not part of this
repository; this is all the Update loop needs of it, and it holds whether the
removal takes the sender out of `update_senders` or leaves it there. -/
def KeepsUpdatesBelow (erase : Nat → ProposalBundle P → ProposalBundle P) : Prop :=
  ∀ i j bundle, i < j → (erase j bundle).updates[i]? = bundle.updates[i]? ∧
    (erase j bundle).updateSenders[i]? = bundle.updateSenders[i]?

/-- The modelled `remove::<UpdateProposal>`, which takes the sender out with the
Update, is such a removal. -/
theorem keepsUpdatesBelow_remove : KeepsUpdatesBelow (P := P) fun j bundle => bundle.remove .update j :=
  fun _ _ _ before => ⟨List.getElem?_eraseIdx_of_lt _ _ _ before,
    List.getElem?_eraseIdx_of_lt _ _ _ before⟩

namespace ProposalApplier

variable (env : ProposalApplier P) (strategy : FilterStrategy)
  (groupExtensionsInUse : P.ExtensionList) (commitTime : Option MlsTime)

/-- The verdict of the Update loop of `validate_new_nodes` on an Update, taken
against the leaf index of the member that sent it. -/
def updateCheck (p : ProposalInfo (UpdateProposal P)) : Except MlsError Bool := do
  let senderIndex ← leafIndexOfUpdateSender p
  env.updateVerdict strategy groupExtensionsInUse commitTime p senderIndex

theorem updateCheck_eq_ok_true {p : ProposalInfo (UpdateProposal P)} :
    env.updateCheck strategy groupExtensionsInUse commitTime p = .ok true →
      ∃ senderIndex oldLeaf, p.sender = .member senderIndex ∧
        env.getLeafNode senderIndex = .ok oldLeaf ∧
        env.updateResult groupExtensionsInUse commitTime p senderIndex oldLeaf = .ok () := by
  simp only [updateCheck, updateVerdict, bind_eq_ok, applyStrategy_eq_ok_true,
    leafIndexOfUpdateSender_eq_ok]
  rintro ⟨senderIndex, sender, oldLeaf, old, valid⟩
  exact ⟨senderIndex, oldLeaf, sender, old, valid⟩

theorem ignore_of_updateCheck_eq_ok_false {p : ProposalInfo (UpdateProposal P)}
    (dropped : env.updateCheck strategy groupExtensionsInUse commitTime p = .ok false) :
    strategy.ignore p.isByReference = true := by
  simp only [updateCheck, updateVerdict, bind_eq_ok] at dropped
  obtain ⟨_, _, _, _, verdict⟩ := dropped
  exact ignore_of_applyStrategy_eq_ok_false verdict

/-- One step of the Update loop reads nothing past its own index. -/
theorem validateUpdate_erase {erase : Nat → ProposalBundle P → ProposalBundle P}
    (keepsBelow : KeepsUpdatesBelow erase) {i j : Nat} (before : i < j) (bundle : ProposalBundle P) :
    env.validateUpdate strategy groupExtensionsInUse commitTime i (erase j bundle) =
      env.validateUpdate strategy groupExtensionsInUse commitTime i bundle := by
  simp only [validateUpdate, (keepsBelow i j bundle before).1, (keepsBelow i j bundle before).2]

/-- On a paired bundle the Update loop never meets a missing sender: step `i`
validates Update `i` against its own sender. -/
theorem validateUpdate_of_paired {bundle : ProposalBundle P} (paired : Paired bundle) {i : Nat}
    (inRange : i < bundle.updates.length) :
    env.validateUpdate strategy groupExtensionsInUse commitTime i bundle =
      env.updateCheck strategy groupExtensionsInUse commitTime bundle.updates[i] := by
  have senderInRange : i < bundle.updateSenders.length := paired.length_eq ▸ inRange
  have sender : bundle.updates[i].sender = .member bundle.updateSenders[i] := by
    have := (List.forall₂_iff_get.mp paired).2 i inRange senderInRange
    simpa using this
  simp only [validateUpdate, updateCheck, List.getElem?_eq_getElem inRange,
    List.getElem?_eq_getElem senderInRange, leafIndexOfUpdateSender_eq_ok.mpr sender]
  rfl

/-- The Update loop of `validate_new_nodes` on a paired bundle, whatever
`remove::<UpdateProposal>` does to `update_senders` beyond `KeepsUpdatesBelow`:
it fails only where the check of an Update against its own sender fails, and
otherwise erases the Updates whose check answers `false`. -/
theorem removeRevBy_validateUpdate {erase : Nat → ProposalBundle P → ProposalBundle P}
    (keepsBelow : KeepsUpdatesBelow erase) {bundle : ProposalBundle P} (paired : Paired bundle) :
    removeRevBy erase (env.validateUpdate strategy groupExtensionsInUse commitTime)
        bundle.updates.length bundle =
      (bundle.updates.reverse.mapM (env.updateCheck strategy groupExtensionsInUse commitTime)).map
        (eraseUnkept erase bundle.updates.length · bundle) := by
  rw [removeRevBy_eq _ _ fun i j bundle lt => env.validateUpdate_erase strategy _ _ keepsBelow lt bundle,
    mapM_range_reverse _ _ _ fun i inRange => env.validateUpdate_of_paired strategy _ _ paired inRange]

/-- With the modelled removal the loop keeps the Updates by their checks. -/
theorem removeRev_validateUpdate {bundle : ProposalBundle P} (paired : Paired bundle) :
    removeRev .update (env.validateUpdate strategy groupExtensionsInUse commitTime)
        bundle.updates.length bundle =
      (bundle.updates.reverse.mapM (env.updateCheck strategy groupExtensionsInUse commitTime)).map
        fun verdicts => bundle.retain .update verdicts.reverse := by
  rw [removeRev_eq _ _ fun i j bundle lt =>
      env.validateUpdate_erase strategy _ _ keepsUpdatesBelow_remove lt bundle,
    mapM_range_reverse _ _ _ fun i inRange => env.validateUpdate_of_paired strategy _ _ paired inRange]

/-- The Update loop of `validate_new_nodes`, on a paired bundle, retains the
Updates by their verdicts against their own senders. -/
theorem removeRev_validateUpdate_eq_ok {before after : ProposalBundle P} (paired : Paired before) :
    removeRev .update (env.validateUpdate strategy groupExtensionsInUse commitTime)
        before.updates.length before = .ok after ↔
      RetainedBy .update (env.updateCheck strategy groupExtensionsInUse commitTime) before after := by
  rw [env.removeRev_validateUpdate strategy _ _ paired]
  exact reverse_mapM_retain_eq_ok

/-- The specification's reading of `validate_new_nodes` (leaf-node
revalidation): each Update is checked against the old leaf of the member that
sent it, read off the Update itself, with no `update_senders` to consult. -/
def validateNewNodesBySender (proposals : ProposalBundle P) : Except MlsError (ProposalBundle P) := do
  env.requiredCapabilities groupExtensionsInUse
  let proposals ← removeRev .update
    (entryVerdict .update (env.updateCheck strategy groupExtensionsInUse commitTime))
    proposals.updates.length proposals
  let badIndices ← collectBadIndices (fun p => applyStrategy strategy p.isByReference
    (env.addResult groupExtensionsInUse commitTime p)) proposals.additions
  pure (removeIndices proposals .add badIndices)

/-- On a paired bundle `validate_new_nodes` is its specification's reading,
errors included: the `InternalProposalFilterError` of a missing sender is never
raised, and each Update is checked against its own sender's leaf. -/
theorem validateNewNodes_eq_bySender {proposals : ProposalBundle P} (paired : Paired proposals) :
    env.validateNewNodes strategy groupExtensionsInUse commitTime proposals =
      env.validateNewNodesBySender strategy groupExtensionsInUse commitTime proposals := by
  have bySender := removeRev_entryVerdict .update
    (env.updateCheck strategy groupExtensionsInUse commitTime) proposals
  rw [ProposalBundle.get_update] at bySender
  rw [validateNewNodes, validateNewNodesBySender, env.removeRev_validateUpdate strategy _ _ paired,
    bySender]

/-- `validate_new_nodes` on a paired bundle: the capability check, then the
Updates retained by their verdicts against their own senders, then the Adds. -/
theorem validateNewNodes_eq_ok {before after : ProposalBundle P} (paired : Paired before) :
    env.validateNewNodes strategy groupExtensionsInUse commitTime before = .ok after ↔
      env.requiredCapabilities groupExtensionsInUse = .ok () ∧ ∃ middle,
        RetainedBy .update (env.updateCheck strategy groupExtensionsInUse commitTime) before middle ∧
        RetainedBy .add (fun p => applyStrategy strategy p.isByReference
          (env.addResult groupExtensionsInUse commitTime p)) middle after := by
  simp only [validateNewNodes, bind_eq_ok, env.removeRev_validateUpdate_eq_ok strategy _ _ paired]
  constructor
  · rintro ⟨⟨⟩, capabilities, middle, updates, additions⟩
    exact ⟨capabilities, middle, updates, retainByType_eq_ok.mp
      ((collect_removeIndices_eq middle .add _).symm.trans (bind_eq_ok.mpr additions))⟩
  · rintro ⟨capabilities, middle, updates, additions⟩
    exact ⟨(), capabilities, middle, updates, bind_eq_ok.mp
      ((collect_removeIndices_eq middle .add _).trans (retainByType_eq_ok.mpr additions))⟩

/-! ## `apply_proposal_changes` -/

/-- The group extensions the proposals of a bundle are validated under: those
of its first GroupContextExtensions proposal, else the group's own. -/
def extensionsInUse (proposals : ProposalBundle P) : P.ExtensionList :=
  match proposals.groupContextExtensions with
  | p :: _ => p.proposal
  | [] => env.originalGroupExtensions

/-- Why `apply_proposal_changes` drops the extensions proposal `p`: the strategy
lets it drop `p`, and either the required capabilities of the new extensions
cannot be read, or the proposals validated under them leave a tree that does not
support them. -/
def ExtensionsRejected (proposals : ProposalBundle P) (p : ProposalInfo P.ExtensionList) : Prop :=
  strategy.ignore p.isByReference = true ∧
    (env.requiredCapabilities p.proposal ≠ .ok () ∨
      ∃ output, env.validateNewNodes strategy p.proposal commitTime proposals = .ok output ∧
        env.newCapabilitiesSupported p.proposal output ≠ .ok ())

/-- `apply_proposal_changes` keeps the first extensions proposal when the
proposals validated under it leave a tree that supports it, and drops it, for a
reason of `ExtensionsRejected`, otherwise; then it validates what it kept. -/
theorem applyProposalChanges_choice {before after : ProposalBundle P}
    (run : env.applyProposalChanges strategy commitTime before = .ok after) :
    ∃ validated,
      ((validated = before ∧ ∀ p ∈ before.groupContextExtensions.head?,
          env.requiredCapabilities p.proposal = .ok () ∧
            env.newCapabilitiesSupported p.proposal after = .ok ()) ∨
        (validated = before.set .groupContextExtensions [] ∧
          ∀ p ∈ before.groupContextExtensions.head?,
            env.ExtensionsRejected strategy commitTime before p)) ∧
      env.validateNewNodes strategy (env.extensionsInUse validated) commitTime validated = .ok after := by
  unfold applyProposalChanges at run
  cases extensions : before.groupContextExtensions with
  | nil =>
      rw [extensions] at run
      exact ⟨_, .inr ⟨rfl, by simp⟩, run⟩
  | cons first rest =>
      rw [extensions] at run
      cases capabilities : env.requiredCapabilities first.proposal with
      | ok =>
          simp only [List.head?_cons, capabilities, pure_eq_ok_self, ok_bind,
            applyProposalsWithNewCapabilities, bind_eq_ok] at run
          obtain ⟨output, validated, checked⟩ := run
          cases supported : env.newCapabilitiesSupported first.proposal output with
          | ok =>
              rw [supported] at checked
              cases pure_eq_ok.mp checked
              refine ⟨before, .inl ⟨rfl, by simp [capabilities, supported]⟩, ?_⟩
              simpa [extensionsInUse, extensions] using validated
          | error e =>
              rw [supported] at checked
              dsimp only at checked
              split at checked
              · rename_i ignored
                refine ⟨_, .inr ⟨rfl, ?_⟩, checked⟩
                rintro p ⟨⟩
                exact ⟨ignored, .inr ⟨output, validated, by simp [supported]⟩⟩
              · cases checked
      | error e =>
          simp only [List.head?_cons, capabilities] at run
          split at run
          · rename_i ignored
            refine ⟨_, .inr ⟨rfl, ?_⟩, run⟩
            rintro p ⟨⟩
            exact ⟨ignored, .inl (by simp [capabilities])⟩
          · cases run

/-- `apply_proposal_changes` validates either the bundle under its extensions
proposal, or the bundle without it, when that proposal is dropped, under the
group's own extensions; the capability check holds of what it returns. -/
theorem applyProposalChanges_spec {before after : ProposalBundle P}
    (run : env.applyProposalChanges strategy commitTime before = .ok after) :
    ∃ validated, (validated = before ∨
        validated = { before with groupContextExtensions := [] } ∧
          ∀ p ∈ before.groupContextExtensions.head?, strategy.ignore p.isByReference = true) ∧
      env.validateNewNodes strategy (env.extensionsInUse validated) commitTime validated = .ok after ∧
      ∀ p ∈ validated.groupContextExtensions.head?,
        env.newCapabilitiesSupported p.proposal after = .ok () := by
  obtain ⟨validated, kept | ⟨cleared, rejected⟩, nodes⟩ := env.applyProposalChanges_choice strategy commitTime run
  · obtain ⟨rfl, passed⟩ := kept
    exact ⟨_, .inl rfl, nodes, fun p member => (passed p member).2⟩
  · subst cleared
    exact ⟨_, .inr ⟨rfl, fun p member => (rejected p member).1⟩, nodes, by simp⟩

end ProposalApplier

end MlsRs.ProposalFilter
