import MlsRs.Codec.Integer
import MlsRs.Result

/-!
# Transcript hashes

`transcript_hash.rs` chains two hashes per commit.  The confirmed transcript
hash is the hash of the previous interim hash followed by the encoded wire
format, framed content and signature of the commit; the interim hash is the
hash of the confirmed one followed by the encoded confirmation tag.

The field types of the hash inputs, their derived encodings and the cipher
suite's `hash` live outside this repository and are parameters here.  The main
result reduces equal confirmed hashes at the end of two histories of the same
length to a hash collision between the two runs, or to the histories agreeing.
A run is built from the two `create` functions themselves; each step records
the input `create` hashed, so that a collision names the inputs the hash saw.
-/

namespace MlsRs.Group

open MlsRs.Codec

variable {WireFormat FramedContent MessageSignature ConfirmationTag Failure : Type}

/-- The parts of a commit's `AuthenticatedContent` the transcript reads. -/
structure Commit (WireFormat FramedContent MessageSignature ConfirmationTag : Type) where
  wireFormat : WireFormat
  content : FramedContent
  signature : MessageSignature
  confirmationTag : ConfirmationTag

/-- The transcript hashes' collaborators: the cipher suite's `hash`, and the
derived `mls_encode_to_vec` of `ConfirmedTranscriptHashInput` and of
`InterimTranscriptHashInput`. -/
structure TranscriptHashing
    (WireFormat FramedContent MessageSignature ConfirmationTag Failure : Type) where
  hash : Bytes → Except Failure Bytes
  encodeConfirmedInput : WireFormat → FramedContent → MessageSignature → Except Failure Bytes
  encodeInterimInput : ConfirmationTag → Except Failure Bytes

variable (hashing : TranscriptHashing WireFormat FramedContent MessageSignature ConfirmationTag Failure)

/-- `[interim_transcript_hash, input.mls_encode_to_vec()?].concat()`. -/
def confirmedHashInput (interim : Bytes)
    (commit : Commit WireFormat FramedContent MessageSignature ConfirmationTag) :
    Except Failure Bytes := do
  let input ← hashing.encodeConfirmedInput commit.wireFormat commit.content commit.signature
  pure (interim ++ input)

/-- `[confirmed, InterimTranscriptHashInput { confirmation_tag }.mls_encode_to_vec()?].concat()`. -/
def interimHashInput (confirmed : Bytes) (confirmationTag : ConfirmationTag) :
    Except Failure Bytes := do
  let input ← hashing.encodeInterimInput confirmationTag
  pure (confirmed ++ input)

/-- `ConfirmedTranscriptHash::create`. -/
def ConfirmedTranscriptHash.create (interim : Bytes)
    (commit : Commit WireFormat FramedContent MessageSignature ConfirmationTag) :
    Except Failure Bytes := do
  hashing.hash (← confirmedHashInput hashing interim commit)

/-- `InterimTranscriptHash::create`. -/
def InterimTranscriptHash.create (confirmed : Bytes) (confirmationTag : ConfirmationTag) :
    Except Failure Bytes := do
  hashing.hash (← interimHashInput hashing confirmed confirmationTag)

/-- The two hashes one commit adds to the transcript, each with the input its
`create` hashed. -/
structure TranscriptStep where
  confirmedInput : Bytes
  confirmed : Bytes
  interimInput : Bytes
  interim : Bytes
  deriving DecidableEq, Repr

/-- One commit, as a group advances its transcript: `ConfirmedTranscriptHash::create`
from the previous interim hash, then `InterimTranscriptHash::create` from its
result and the commit's confirmation tag, each with the input it hashes. -/
def transcriptStep (interim : Bytes)
    (commit : Commit WireFormat FramedContent MessageSignature ConfirmationTag) :
    Except Failure TranscriptStep := do
  let confirmed ← ConfirmedTranscriptHash.create hashing interim commit
  let next ← InterimTranscriptHash.create hashing confirmed commit.confirmationTag
  let confirmedInput ← confirmedHashInput hashing interim commit
  let interimInput ← interimHashInput hashing confirmed commit.confirmationTag
  pure ⟨confirmedInput, confirmed, interimInput, next⟩

/-- The transcript over a commit history, from an initial interim hash. -/
def transcriptChain :
    Bytes → List (Commit WireFormat FramedContent MessageSignature ConfirmationTag) →
      Except Failure (List TranscriptStep)
  | _, [] => pure []
  | interim, commit :: commits => do
      let step ← transcriptStep hashing interim commit
      let later ← transcriptChain step.interim commits
      pure (step :: later)

section Inversion

variable {hashing}
variable {interim : Bytes} {commit : Commit WireFormat FramedContent MessageSignature ConfirmationTag}

theorem ConfirmedTranscriptHash.create_eq_ok {confirmed : Bytes} :
    ConfirmedTranscriptHash.create hashing interim commit = .ok confirmed ↔
      ∃ input, confirmedHashInput hashing interim commit = .ok input ∧
        hashing.hash input = .ok confirmed :=
  bind_eq_ok

theorem InterimTranscriptHash.create_eq_ok {confirmed next : Bytes} {tag : ConfirmationTag} :
    InterimTranscriptHash.create hashing confirmed tag = .ok next ↔
      ∃ input, interimHashInput hashing confirmed tag = .ok input ∧ hashing.hash input = .ok next :=
  bind_eq_ok

/-- A step hashed the interim hash followed by the encoded commit fields, then
the confirmed hash followed by the encoded tag. -/
theorem transcriptStep_ok {step : TranscriptStep}
    (computed : transcriptStep hashing interim commit = .ok step) :
    (∃ input, hashing.encodeConfirmedInput commit.wireFormat commit.content commit.signature =
        .ok input ∧ step.confirmedInput = interim ++ input) ∧
      hashing.hash step.confirmedInput = .ok step.confirmed ∧
      (∃ input, hashing.encodeInterimInput commit.confirmationTag = .ok input ∧
        step.interimInput = step.confirmed ++ input) ∧
      hashing.hash step.interimInput = .ok step.interim := by
  simp only [transcriptStep, ConfirmedTranscriptHash.create_eq_ok,
    InterimTranscriptHash.create_eq_ok, bind_eq_ok, pure_eq_ok] at computed
  obtain ⟨confirmed, ⟨confirmedInput, built, hashed⟩, next, ⟨interimInput, built', hashed'⟩,
    _, recorded, _, recorded', rfl⟩ := computed
  cases recorded.symm.trans built
  cases recorded'.symm.trans built'
  simp only [confirmedHashInput, interimHashInput, bind_eq_ok, pure_eq_ok] at built built'
  obtain ⟨input, encoded, rfl⟩ := built
  obtain ⟨tag, tagged, rfl⟩ := built'
  exact ⟨⟨input, encoded, rfl⟩, hashed, ⟨tag, tagged, rfl⟩, hashed'⟩

theorem transcriptChain_cons_ok {commits} {steps : List TranscriptStep}
    (computed : transcriptChain hashing interim (commit :: commits) = .ok steps) :
    ∃ step later, transcriptStep hashing interim commit = .ok step ∧
      transcriptChain hashing step.interim commits = .ok later ∧ steps = step :: later := by
  simp only [transcriptChain, bind_eq_ok, pure_eq_ok] at computed
  obtain ⟨step, stepped, later, rest, rfl⟩ := computed
  exact ⟨step, later, stepped, rest, rfl⟩

theorem length_transcriptChain {commits} {steps : List TranscriptStep}
    (computed : transcriptChain hashing interim commits = .ok steps) :
    steps.length = commits.length := by
  induction commits generalizing interim steps with
  | nil => cases computed; rfl
  | cons commit commits ih =>
      obtain ⟨step, later, -, rest, rfl⟩ := transcriptChain_cons_ok computed
      simp [ih rest]

end Inversion

/-! ## Binding of the history -/

/-- The assumptions of the binding argument: all hash outputs have one length,
and the derived encodings of the two hash inputs are injective. -/
structure TranscriptHashing.Binding : Prop where
  hash_length : ∀ {input input' output output'}, hashing.hash input = .ok output →
    hashing.hash input' = .ok output' → output.length = output'.length
  confirmed_injective : ∀ {wireFormat wireFormat' content content' signature signature' bytes},
    hashing.encodeConfirmedInput wireFormat content signature = .ok bytes →
    hashing.encodeConfirmedInput wireFormat' content' signature' = .ok bytes →
    wireFormat = wireFormat' ∧ content = content' ∧ signature = signature'
  interim_injective : ∀ {tag tag' bytes}, hashing.encodeInterimInput tag = .ok bytes →
    hashing.encodeInterimInput tag' = .ok bytes → tag = tag'

/-- The hash maps two different inputs to one output. -/
def TranscriptHashing.Collides (input input' : Bytes) : Prop :=
  input ≠ input' ∧ ∃ output, hashing.hash input = .ok output ∧ hashing.hash input' = .ok output

/-- At some commit, the two runs fed different inputs to the hash and got one
output. -/
def Collision (steps others : List TranscriptStep) : Prop :=
  ∃ (k : Nat) (step other : TranscriptStep), steps[k]? = some step ∧ others[k]? = some other ∧
    (hashing.Collides step.confirmedInput other.confirmedInput ∨
      hashing.Collides step.interimInput other.interimInput)

/-- Two histories agree on every field the transcript binds: wire format,
content and signature of every commit, and the confirmation tag of every commit
but the last. -/
def Agree (commits others : List (Commit WireFormat FramedContent MessageSignature ConfirmationTag)) :
    Prop :=
  ∀ k (commit other : Commit WireFormat FramedContent MessageSignature ConfirmationTag),
    commits[k]? = some commit → others[k]? = some other →
    commit.wireFormat = other.wireFormat ∧ commit.content = other.content ∧
      commit.signature = other.signature ∧
      (k + 1 < commits.length → commit.confirmationTag = other.confirmationTag)

section Binding

variable {hashing}
variable {interim interim' : Bytes}
variable {commit other : Commit WireFormat FramedContent MessageSignature ConfirmationTag}
variable {step step' : TranscriptStep}

theorem Collision.cons {steps others : List TranscriptStep} (collision : Collision hashing steps others) :
    Collision hashing (step :: steps) (step' :: others) := by
  obtain ⟨k, found, found', here, here', clash⟩ := collision
  exact ⟨k + 1, found, found', by simpa using here, by simpa using here', clash⟩

theorem Collision.head (clash : hashing.Collides step.confirmedInput step'.confirmedInput ∨
      hashing.Collides step.interimInput step'.interimInput)
    {steps others : List TranscriptStep} :
    Collision hashing (step :: steps) (step' :: others) :=
  ⟨0, step, step', by simp, by simp, clash⟩

theorem Agree.nil : Agree ([] : List (Commit WireFormat FramedContent MessageSignature ConfirmationTag)) [] :=
  fun _ _ _ here => by simp at here

/-- Histories agree when their first commits have the same bound fields, the
same tag unless they are the last, and the rest agree. -/
theorem Agree.cons {commits others : List (Commit WireFormat FramedContent MessageSignature ConfirmationTag)}
    (agree : Agree commits others)
    (fields : commit.wireFormat = other.wireFormat ∧ commit.content = other.content ∧
      commit.signature = other.signature)
    (tag : commits ≠ [] → commit.confirmationTag = other.confirmationTag) :
    Agree (commit :: commits) (other :: others) := by
  intro k found found' here here'
  cases k with
  | zero =>
      simp only [List.getElem?_cons_zero, Option.some.injEq] at here here'
      subst here here'
      exact ⟨fields.1, fields.2.1, fields.2.2, fun bound => tag (List.ne_nil_of_length_pos (by simpa using bound))⟩
  | succ k =>
      obtain ⟨wire, content, signature, laterTag⟩ :=
        agree k found found' (by simpa using here) (by simpa using here')
      exact ⟨wire, content, signature, fun bound => laterTag (by simpa using bound)⟩

/-- Equal confirmed hashes: a collision, or the same previous interim hash and
the same commit fields. -/
theorem confirmed_binds (binding : hashing.Binding)
    (computed : transcriptStep hashing interim commit = .ok step)
    (computed' : transcriptStep hashing interim' other = .ok step')
    (sameLength : interim.length = interim'.length) (sameHash : step.confirmed = step'.confirmed) :
    hashing.Collides step.confirmedInput step'.confirmedInput ∨
      interim = interim' ∧ commit.wireFormat = other.wireFormat ∧
        commit.content = other.content ∧ commit.signature = other.signature := by
  obtain ⟨⟨input, encoded, built⟩, hashed, -⟩ := transcriptStep_ok computed
  obtain ⟨⟨input', encoded', built'⟩, hashed', -⟩ := transcriptStep_ok computed'
  by_cases sameInput : step.confirmedInput = step'.confirmedInput
  · rw [built, built'] at sameInput
    obtain ⟨rfl, rfl⟩ := List.append_inj sameInput sameLength
    exact .inr ⟨rfl, binding.confirmed_injective encoded encoded'⟩
  · exact .inl ⟨sameInput, step.confirmed, hashed, sameHash ▸ hashed'⟩

/-- Equal interim hashes: a collision, or the same confirmed hash and the same
confirmation tag. -/
theorem interim_binds (binding : hashing.Binding)
    (computed : transcriptStep hashing interim commit = .ok step)
    (computed' : transcriptStep hashing interim' other = .ok step')
    (sameHash : step.interim = step'.interim) :
    hashing.Collides step.interimInput step'.interimInput ∨
      step.confirmed = step'.confirmed ∧ commit.confirmationTag = other.confirmationTag := by
  obtain ⟨-, confirmed, ⟨input, encoded, built⟩, hashed⟩ := transcriptStep_ok computed
  obtain ⟨-, confirmed', ⟨input', encoded', built'⟩, hashed'⟩ := transcriptStep_ok computed'
  by_cases sameInput : step.interimInput = step'.interimInput
  · rw [built, built'] at sameInput
    obtain ⟨same, rfl⟩ := List.append_inj sameInput (binding.hash_length confirmed confirmed')
    exact .inr ⟨same, binding.interim_injective encoded encoded'⟩
  · exact .inl ⟨sameInput, step.interim, hashed, sameHash ▸ hashed'⟩

/-- The binding argument from any two interim hashes of one length, by
induction back along the histories. -/
theorem chain_binds (binding : hashing.Binding)
    {commits others : List (Commit WireFormat FramedContent MessageSignature ConfirmationTag)} :
    ∀ {interim interim' : Bytes} {steps steps' : List TranscriptStep},
      interim.length = interim'.length →
      transcriptChain hashing interim commits = .ok steps →
      transcriptChain hashing interim' others = .ok steps' →
      commits.length = others.length → commits ≠ [] →
      steps.getLast?.map (·.confirmed) = steps'.getLast?.map (·.confirmed) →
      Collision hashing steps steps' ∨ interim = interim' ∧ Agree commits others := by
  induction commits generalizing others with
  | nil => exact fun _ _ _ _ nonempty _ => absurd rfl nonempty
  | cons commit commits ih =>
      intro interim interim' steps steps' sameLength run run' sameCount _ sameEnd
      cases others with
      | nil => simp at sameCount
      | cons other others =>
      obtain ⟨step, later, computed, rest, rfl⟩ := transcriptChain_cons_ok run
      obtain ⟨step', later', computed', rest', rfl⟩ := transcriptChain_cons_ok run'
      have laterLength := length_transcriptChain rest
      have laterLength' := length_transcriptChain rest'
      simp only [List.length_cons, Nat.add_right_cancel_iff] at sameCount
      cases commits with
      | nil =>
          obtain rfl : others = [] := List.length_eq_zero.mp sameCount.symm
          obtain rfl : later = [] := List.length_eq_zero.mp laterLength
          obtain rfl : later' = [] := List.length_eq_zero.mp laterLength'
          simp only [List.getLast?_singleton, Option.map_some', Option.some.injEq] at sameEnd
          rcases confirmed_binds binding computed computed' sameLength sameEnd with
            clash | ⟨rfl, fields⟩
          · exact .inl (Collision.head (.inl clash))
          exact .inr ⟨rfl, Agree.nil.cons fields fun nonempty => absurd rfl nonempty⟩
      | cons next commits =>
          obtain ⟨first, tail, rfl⟩ := List.exists_cons_of_length_pos
            (Nat.lt_of_lt_of_eq (Nat.succ_pos _) laterLength.symm)
          obtain ⟨first', tail', rfl⟩ := List.exists_cons_of_length_pos
            (Nat.lt_of_lt_of_eq (Nat.succ_pos _) (sameCount.trans laterLength'.symm))
          simp only [List.getLast?_cons_cons] at sameEnd
          have interimLength := binding.hash_length (transcriptStep_ok computed).2.2.2
            (transcriptStep_ok computed').2.2.2
          rcases ih interimLength rest rest' sameCount (List.cons_ne_nil _ _) sameEnd with
            collision | ⟨sameInterim, agree⟩
          · exact .inl collision.cons
          rcases interim_binds binding computed computed' sameInterim with
            clash | ⟨sameConfirmed, sameTag⟩
          · exact .inl (Collision.head (.inr clash))
          rcases confirmed_binds binding computed computed' sameLength sameConfirmed with
            clash | ⟨rfl, fields⟩
          · exact .inl (Collision.head (.inl clash))
          exact .inr ⟨rfl, agree.cons fields fun _ => sameTag⟩

/-- The transcript binds the whole commit history: two histories of the same
length, run from the same initial interim hash, that end with the same
confirmed hash either make the hash collide at some commit of the two runs, or
agree on every commit's wire format, content and signature and on every
confirmation tag but the last. -/
theorem transcript_binds_history (binding : hashing.Binding) (initial : Bytes)
    {commits others : List (Commit WireFormat FramedContent MessageSignature ConfirmationTag)}
    {steps steps' : List TranscriptStep}
    (run : transcriptChain hashing initial commits = .ok steps)
    (run' : transcriptChain hashing initial others = .ok steps')
    (sameCount : commits.length = others.length)
    (sameEnd : steps.getLast?.map (·.confirmed) = steps'.getLast?.map (·.confirmed)) :
    Collision hashing steps steps' ∨ Agree commits others := by
  by_cases empty : commits = []
  · subst empty
    exact .inr fun k _ _ here => by simp at here
  · exact (chain_binds binding rfl run run' sameCount empty sameEnd).imp id And.right

end Binding

/-- A one-byte checksum, `31 * acc + byte` over the input with `u8` wrapping,
and encodings that write each commit field as one byte. -/
def checksumHashing : TranscriptHashing UInt8 UInt8 UInt8 UInt8 Unit where
  hash input := .ok [input.foldl (fun acc byte => 31 * acc + byte) 0]
  encodeConfirmedInput wireFormat content signature := .ok [wireFormat, content, signature]
  encodeInterimInput tag := .ok [tag]

theorem checksumHashing_binding : checksumHashing.Binding where
  hash_length := by rintro _ _ _ _ ⟨⟩ ⟨⟩; rfl
  confirmed_injective := by
    rintro _ _ _ _ _ _ _ ⟨⟩ same
    simp only [checksumHashing, Except.ok.injEq, List.cons.injEq] at same
    exact ⟨same.1.symm, same.2.1.symm, same.2.2.1.symm⟩
  interim_injective := by
    rintro _ _ _ ⟨⟩ same
    simp only [checksumHashing, Except.ok.injEq, List.cons.injEq] at same
    exact same.1.symm

/-- A history of two commits. -/
def checksumHistory : List (Commit UInt8 UInt8 UInt8 UInt8) :=
  [⟨0, 1, 40, 7⟩, ⟨0, 2, 3, 9⟩]

/-- A history whose first commit differs from that of `checksumHistory` in
content and signature, `[0, 2, 9]` against `[0, 1, 40]`, which the checksum
maps alike; the runs then agree, and end on one confirmed hash. -/
def checksumHistory' : List (Commit UInt8 UInt8 UInt8 UInt8) :=
  [⟨0, 2, 9, 7⟩, ⟨0, 2, 3, 9⟩]

theorem transcript_binds_checksum_histories :
    Collision checksumHashing
        [⟨[0, 1, 40], [71], [71, 7], [160]⟩, ⟨[160, 0, 2, 3], [161], [161, 9], [136]⟩]
        [⟨[0, 2, 9], [71], [71, 7], [160]⟩, ⟨[160, 0, 2, 3], [161], [161, 9], [136]⟩] ∨
      Agree checksumHistory checksumHistory' :=
  transcript_binds_history checksumHashing_binding [] rfl rfl rfl rfl

end MlsRs.Group
