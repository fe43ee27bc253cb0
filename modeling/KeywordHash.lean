import KeywordHash.Main
import KeywordHash.Proofs.Placement
import KeywordHash.Proofs.Lookup
import KeywordHash.Proofs.Hashing
import KeywordHash.Proofs.Tally
import KeywordHash.Proofs.Rounds
import KeywordHash.Proofs.Safety
import KeywordHash.Proofs.Generation
import KeywordHash.Proofs.Blame
import KeywordHash.Proofs.Separation
import KeywordHash.Proofs.ReadBack
import KeywordHash.Proofs.Reloading
import KeywordHash.Proofs.Wordlist
import KeywordHash.Proofs.Replay
import KeywordHash.Proofs.Resolving
import KeywordHash.Proofs.Linewise
import KeywordHash.Proofs.Conflicts
import KeywordHash.Proofs.MissWeight
import KeywordHash.Proofs.Twins
import KeywordHash.Proofs.Meeting
import KeywordHash.Proofs.Rearrangement
import KeywordHash.Proofs.Counting
import KeywordHash.Proofs.Accounting
import KeywordHash.Proofs.Offsets
import KeywordHash.Proofs.Suggestion
import KeywordHash.Proofs.Diagnosis
import KeywordHash.Proofs.LineEndings
import KeywordHash.Proofs.Noninterference
import KeywordHash.Proofs.Differing
import KeywordHash.Proofs.Truncation
import KeywordHash.Proofs.Agreement
import KeywordHash.Proofs.Confinement
import KeywordHash.Proofs.Layers
