import MlsRs.Result

/-!
# Proposal bundles

A `ProposalBundle` holds the proposals of a commit in one list per proposal
type, each entry with its sender and its origin (by value in the commit, or by
reference to a proposal published earlier), plus `update_senders`, the leaf
index of each Update's sender, filled in by the filter.

`bundle.rs` is not part of this repository.  The bundle operations the filter
calls, `remove::<T>`, `retain_by_type::<T>` and `length`, are modelled from the
spec's index-stable per-type sequences; the per-type generics are indexed by
`ProposalKind`.  Proposal contents that only code outside the repository reads
(leaf nodes, key packages, PSK identifiers, extension lists) have types given
by `Payloads`.
-/

namespace MlsRs.ProposalFilter

/-- `LeafIndex(u32)`. -/
abbrev LeafIndex := Nat

/-- `ProtocolVersion(u16)`, ordered by value. -/
abbrev ProtocolVersion := Nat

/-- `ProposalType(u16)`. -/
structure ProposalType where
  rawValue : Nat
  deriving DecidableEq, Repr

namespace ProposalType

def ADD : ProposalType := ⟨1⟩
def UPDATE : ProposalType := ⟨2⟩
def REMOVE : ProposalType := ⟨3⟩
def PSK : ProposalType := ⟨4⟩
def RE_INIT : ProposalType := ⟨5⟩
def EXTERNAL_INIT : ProposalType := ⟨6⟩
def GROUP_CONTEXT_EXTENSIONS : ProposalType := ⟨7⟩

end ProposalType

/-- The sender of a proposal. -/
inductive Sender where
  | member (index : Nat)
  | external (index : Nat)
  | newMemberCommit
  | newMemberProposal
  deriving DecidableEq, Repr

/-- Whether a proposal came by value in the commit or by reference. -/
inductive ProposalSource where
  | byValue
  | byReference
  deriving DecidableEq, Repr

/-- A proposal with its sender and origin. -/
structure ProposalInfo (α : Type) where
  proposal : α
  sender : Sender
  source : ProposalSource
  deriving DecidableEq, Repr

namespace ProposalInfo

variable {α : Type}

def isByReference (info : ProposalInfo α) : Bool :=
  match info.source with
  | .byValue => false
  | .byReference => true

def isByValue (info : ProposalInfo α) : Bool := !info.isByReference

end ProposalInfo

/-- The types of proposal contents that only code outside this repository
reads. -/
structure Payloads where
  LeafNode : Type
  KeyPackage : Type
  /-- `key_package.leaf_node`. -/
  leafNode : KeyPackage → LeafNode
  PreSharedKeyID : Type
  ExtensionList : Type

variable {P : Payloads}

structure AddProposal (P : Payloads) where
  keyPackage : P.KeyPackage

structure UpdateProposal (P : Payloads) where
  leafNode : P.LeafNode

structure RemoveProposal where
  toRemove : LeafIndex
  deriving DecidableEq, Repr

structure PreSharedKeyProposal (P : Payloads) where
  psk : P.PreSharedKeyID

/-- A ReInit proposal; the filter reads only its version. -/
structure ReInitProposal where
  version : ProtocolVersion
  deriving DecidableEq, Repr

/-- An ExternalInit proposal; the filter reads none of it. -/
structure ExternalInit where
  deriving DecidableEq, Repr

/-- A custom proposal; the filter reads only its type. -/
structure CustomProposal where
  proposalType : ProposalType
  deriving DecidableEq, Repr

/-- The proposal types, as the `Proposable` impls of the bundle index them. -/
inductive ProposalKind where
  | add
  | update
  | remove
  | psk
  | reInit
  | externalInit
  | groupContextExtensions
  | custom
  deriving DecidableEq, Repr

/-- The content type of each proposal type. -/
def ProposalKind.Payload (P : Payloads) : ProposalKind → Type
  | add => AddProposal P
  | update => UpdateProposal P
  | remove => RemoveProposal
  | psk => PreSharedKeyProposal P
  | reInit => ReInitProposal
  | externalInit => ExternalInit
  | groupContextExtensions => P.ExtensionList
  | custom => CustomProposal

/-- `Proposal::proposal_type` of a proposal of each type. -/
def ProposalKind.proposalType : (kind : ProposalKind) → kind.Payload P → ProposalType
  | .add, _ => .ADD
  | .update, _ => .UPDATE
  | .remove, _ => .REMOVE
  | .psk, _ => .PSK
  | .reInit, _ => .RE_INIT
  | .externalInit, _ => .EXTERNAL_INIT
  | .groupContextExtensions, _ => .GROUP_CONTEXT_EXTENSIONS
  | .custom, proposal => proposal.proposalType

/-- The proposals of one commit, one list per type. -/
structure ProposalBundle (P : Payloads) where
  additions : List (ProposalInfo (AddProposal P))
  updates : List (ProposalInfo (UpdateProposal P))
  updateSenders : List LeafIndex
  removals : List (ProposalInfo RemoveProposal)
  psks : List (ProposalInfo (PreSharedKeyProposal P))
  reinitializations : List (ProposalInfo ReInitProposal)
  externalInitializations : List (ProposalInfo ExternalInit)
  groupContextExtensions : List (ProposalInfo P.ExtensionList)
  customProposals : List (ProposalInfo CustomProposal)

/-- Keep the entries whose flag is `true`; entries past the end of the flags
stay. -/
def keepMask {α : Type} : List Bool → List α → List α
  | [], entries => entries
  | _ :: _, [] => []
  | keep :: mask, entry :: entries =>
      if keep then entry :: keepMask mask entries else keepMask mask entries

namespace ProposalBundle

/-- The list of one proposal type. -/
def get (bundle : ProposalBundle P) : (kind : ProposalKind) → List (ProposalInfo (kind.Payload P))
  | .add => bundle.additions
  | .update => bundle.updates
  | .remove => bundle.removals
  | .psk => bundle.psks
  | .reInit => bundle.reinitializations
  | .externalInit => bundle.externalInitializations
  | .groupContextExtensions => bundle.groupContextExtensions
  | .custom => bundle.customProposals

/-- Replace the list of one proposal type. -/
def set (bundle : ProposalBundle P) :
    (kind : ProposalKind) → List (ProposalInfo (kind.Payload P)) → ProposalBundle P
  | .add, entries => { bundle with additions := entries }
  | .update, entries => { bundle with updates := entries }
  | .remove, entries => { bundle with removals := entries }
  | .psk, entries => { bundle with psks := entries }
  | .reInit, entries => { bundle with reinitializations := entries }
  | .externalInit, entries => { bundle with externalInitializations := entries }
  | .groupContextExtensions, entries => { bundle with groupContextExtensions := entries }
  | .custom, entries => { bundle with customProposals := entries }

/-- Reshape the list of one proposal type by a function on lists that does not
look at the entries; for Updates, `update_senders` is reshaped in step, which is
assumed of `bundle.rs` (see `remove`). -/
def modify (bundle : ProposalBundle P) (kind : ProposalKind)
    (reshape : ∀ {α : Type}, List α → List α) : ProposalBundle P :=
  let changed := bundle.set kind (reshape (bundle.get kind))
  if kind = .update then { changed with updateSenders := reshape bundle.updateSenders }
  else changed

/-- Modelled from the spec: `remove::<T>(index)`.  The entry leaves its
index-stable sequence.  That an Update's sender leaves `update_senders` with it
is an assumption: `bundle.rs` is not part of this repository and the spec does
not mention `update_senders`.  The Update loop of `validate_new_nodes` needs
less of it (`KeepsUpdatesBelow`). -/
def remove (bundle : ProposalBundle P) (kind : ProposalKind) (index : Nat) : ProposalBundle P :=
  bundle.modify kind fun entries => entries.eraseIdx index

/-- Modelled from the spec: `T::retain` with the closure's answers in order. -/
def retain (bundle : ProposalBundle P) (kind : ProposalKind) (mask : List Bool) :
    ProposalBundle P :=
  bundle.modify kind (keepMask mask)

/-- Modelled from the spec: `retain_by_type::<T>(f)` keeps the entries for
which `f` answers `Ok(true)`; the first `Err` is the result. -/
def retainByType {ε : Type} (bundle : ProposalBundle P) (kind : ProposalKind)
    (keep : ProposalInfo (kind.Payload P) → Except ε Bool) : Except ε (ProposalBundle P) := do
  let mask ← (bundle.get kind).mapM keep
  pure (bundle.retain kind mask)

/-- Modelled from the spec: `length()`, the number of proposals of every type. -/
def length (bundle : ProposalBundle P) : Nat :=
  bundle.additions.length + bundle.updates.length + bundle.removals.length +
    bundle.psks.length + bundle.reinitializations.length +
    bundle.externalInitializations.length + bundle.groupContextExtensions.length +
    bundle.customProposals.length

/-- The sub-bundle of the entries that `keep` keeps, each type by its own test;
`update_senders` follows the Updates. -/
def filterBy (bundle : ProposalBundle P)
    (keep : (kind : ProposalKind) → ProposalInfo (kind.Payload P) → Bool) : ProposalBundle P where
  additions := bundle.additions.filter (keep .add)
  updates := bundle.updates.filter (keep .update)
  updateSenders := keepMask (bundle.updates.map (keep .update)) bundle.updateSenders
  removals := bundle.removals.filter (keep .remove)
  psks := bundle.psks.filter (keep .psk)
  reinitializations := bundle.reinitializations.filter (keep .reInit)
  externalInitializations := bundle.externalInitializations.filter (keep .externalInit)
  groupContextExtensions := bundle.groupContextExtensions.filter (keep .groupContextExtensions)
  customProposals := bundle.customProposals.filter (keep .custom)

/-- The sub-bundle of the entries satisfying `keep`, in every list. -/
def filter (bundle : ProposalBundle P) (keep : ∀ {α : Type}, ProposalInfo α → Bool) :
    ProposalBundle P :=
  bundle.filterBy fun _ p => keep p

/-- The sub-bundle of the by-value proposals. -/
def byValue (bundle : ProposalBundle P) : ProposalBundle P :=
  bundle.filter ProposalInfo.isByValue

end ProposalBundle

/-! ## Masks and index removal -/

section Masks

variable {α : Type}

@[simp] theorem keepMask_nil_right (mask : List Bool) : keepMask mask ([] : List α) = [] := by
  cases mask <;> rfl

theorem keepMask_append_true (mask : List Bool) (entries : List α) :
    keepMask (mask ++ [true]) entries = keepMask mask entries := by
  induction mask generalizing entries with
  | nil => cases entries <;> rfl
  | cons keep mask ih => cases entries <;> simp [keepMask, ih]

/-- Removing the entry at the mask's end is flagging it `false`. -/
theorem keepMask_eraseIdx (mask : List Bool) (entries : List α) :
    keepMask mask (entries.eraseIdx mask.length) = keepMask (mask ++ [false]) entries := by
  induction mask generalizing entries with
  | nil => cases entries <;> rfl
  | cons keep mask ih => cases entries <;> simp [keepMask, ih]

theorem keepMask_map (keep : α → Bool) (entries : List α) :
    keepMask (entries.map keep) entries = entries.filter keep := by
  induction entries with
  | nil => rfl
  | cons entry entries ih => by_cases kept : keep entry <;> simp [keepMask, kept, ih]

end Masks

namespace ProposalBundle

variable (bundle : ProposalBundle P)

@[simp] theorem get_add : bundle.get .add = bundle.additions := rfl
@[simp] theorem get_update : bundle.get .update = bundle.updates := rfl
@[simp] theorem get_remove : bundle.get .remove = bundle.removals := rfl
@[simp] theorem get_psk : bundle.get .psk = bundle.psks := rfl
@[simp] theorem get_reInit : bundle.get .reInit = bundle.reinitializations := rfl
@[simp] theorem get_externalInit : bundle.get .externalInit = bundle.externalInitializations := rfl
@[simp] theorem get_groupContextExtensions :
    bundle.get .groupContextExtensions = bundle.groupContextExtensions := rfl
@[simp] theorem get_custom : bundle.get .custom = bundle.customProposals := rfl

/-- Bundles with the same proposals of every type differ at most in
`update_senders`. -/
theorem eq_with_updateSenders_of_get {other : ProposalBundle P}
    (same : ∀ kind, bundle.get kind = other.get kind) :
    bundle = { other with updateSenders := bundle.updateSenders } := by
  cases bundle
  cases other
  rw [ProposalBundle.mk.injEq]
  exact ⟨same .add, same .update, rfl, same .remove, same .psk, same .reInit, same .externalInit,
    same .groupContextExtensions, same .custom⟩

@[simp] theorem get_set_self (kind : ProposalKind) (entries) :
    (bundle.set kind entries).get kind = entries := by
  cases kind <;> rfl

@[simp] theorem get_set_of_ne {kind other : ProposalKind} (different : other ≠ kind) (entries) :
    (bundle.set kind entries).get other = bundle.get other := by
  cases kind <;> cases other <;> first | rfl | exact absurd rfl different

@[simp] theorem updateSenders_set (kind : ProposalKind) (entries) :
    (bundle.set kind entries).updateSenders = bundle.updateSenders := by
  cases kind <;> rfl

variable (reshape : ∀ {α : Type}, List α → List α)

@[simp] theorem get_modify_self (kind : ProposalKind) :
    (bundle.modify kind reshape).get kind = reshape (bundle.get kind) := by
  cases kind <;> rfl

@[simp] theorem get_modify_of_ne {kind other : ProposalKind} (different : other ≠ kind) :
    (bundle.modify kind reshape).get other = bundle.get other := by
  cases kind <;> cases other <;> first | rfl | exact absurd rfl different

theorem updateSenders_modify (kind : ProposalKind) :
    (bundle.modify kind reshape).updateSenders =
      if kind = .update then reshape bundle.updateSenders else bundle.updateSenders := by
  cases kind <;> rfl

theorem modify_modify (kind : ProposalKind) (reshape' : ∀ {α : Type}, List α → List α) :
    (bundle.modify kind reshape).modify kind reshape' =
      bundle.modify kind fun entries => reshape' (reshape entries) := by
  cases kind <;> rfl

theorem with_updateSenders_get (senders : List LeafIndex) (kind : ProposalKind) :
    { bundle with updateSenders := senders }.get kind = bundle.get kind := by
  cases kind <;> rfl

theorem get_filterBy (keep : (kind : ProposalKind) → ProposalInfo (kind.Payload P) → Bool)
    (kind : ProposalKind) : (bundle.filterBy keep).get kind = (bundle.get kind).filter (keep kind) := by
  cases kind <;> rfl

theorem get_filter (keep : ∀ {α : Type}, ProposalInfo α → Bool) (kind : ProposalKind) :
    (bundle.filter keep).get kind = (bundle.get kind).filter keep :=
  bundle.get_filterBy _ kind

/-- The number of proposals is read off the lists of the types. -/
theorem length_eq_of_get {other : ProposalBundle P} (same : ∀ kind, bundle.get kind = other.get kind) :
    bundle.length = other.length := by
  simp only [length, ← get_add, ← get_update, ← get_remove, ← get_psk, ← get_reInit,
    ← get_externalInit, ← get_groupContextExtensions, ← get_custom, same]

/-- The bundle holds nothing but ReInits exactly when its length is their
number. -/
theorem length_le_reinitializations_iff :
    bundle.length ≤ bundle.reinitializations.length ↔ ∀ kind, kind ≠ .reInit → bundle.get kind = [] := by
  unfold length
  constructor
  · intro onlyReinits kind other
    apply List.eq_nil_of_length_eq_zero
    cases kind <;> simp only [get_add, get_update, get_remove, get_psk, get_reInit, get_externalInit,
      get_groupContextExtensions, get_custom] <;> first | exact absurd rfl other | omega
  · intro empty
    simp [← get_add, ← get_update, ← get_remove, ← get_psk, ← get_externalInit,
      ← get_groupContextExtensions, ← get_custom, empty]

/-- Removing indices one after another is one reshaping of the list. -/
theorem foldl_remove (kind : ProposalKind) (indices : List Nat) :
    indices.foldl (fun bundle index => bundle.remove kind index) bundle =
      bundle.modify kind fun entries => indices.foldl (fun entries index => entries.eraseIdx index)
        entries := by
  induction indices generalizing bundle with
  | nil => cases kind <;> rfl
  | cons index indices ih =>
      rw [List.foldl_cons, ih, remove, modify_modify]
      rfl

/-- Removing the entry at the mask's end, then keeping by the mask, is keeping
by the mask flagged `false` there. -/
theorem retain_remove (kind : ProposalKind) (mask : List Bool) :
    (bundle.remove kind mask.length).retain kind mask = bundle.retain kind (mask ++ [false]) := by
  simp only [retain, remove, modify_modify, keepMask_eraseIdx]

theorem retain_append_true (kind : ProposalKind) (mask : List Bool) :
    bundle.retain kind (mask ++ [true]) = bundle.retain kind mask := by
  simp only [retain]
  congr 1
  funext α entries
  exact keepMask_append_true mask entries

end ProposalBundle

end MlsRs.ProposalFilter
