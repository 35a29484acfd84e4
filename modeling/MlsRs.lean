import MlsRs.Result
import MlsRs.Codec.Integer
import MlsRs.Codec.Vector
import MlsRs.Group.TranscriptHash
import MlsRs.Group.MembershipTag
import MlsRs.Identity.Credential
import MlsRs.ProposalFilter.Bundle
import MlsRs.ProposalFilter.Filtering
import MlsRs.ProposalFilter.Retain
import MlsRs.ProposalFilter.Stages
import MlsRs.ProposalFilter.Invariants
import MlsRs.ProposalFilter.Flagged
import MlsRs.ProposalFilter.Strategies
