import ClassPatch.Mapping
import ClassPatch.Registry
import ClassPatch.Proofs.Occurrences
import ClassPatch.Proofs.Captures
import ClassPatch.Proofs.Tight
import ClassPatch.Proofs.Normal
import ClassPatch.Proofs.Inserted
import ClassPatch.Proofs.Surviving
import ClassPatch.Proofs.Naming
import ClassPatch.Proofs.Regions
import ClassPatch.Proofs.Sites
import ClassPatch.Proofs.Protected
import ClassPatch.Proofs.Flags
import ClassPatch.Proofs.Suited
import ClassPatch.Proofs.Landing
import ClassPatch.Proofs.Delimited
import ClassPatch.Proofs.Interleaved
import ClassPatch.Proofs.Transparent
import ClassPatch.Proofs.Interning
import ClassPatch.Proofs.Decoded
import ClassPatch.Proofs.Refusals
import ClassPatch.Proofs.Relabelled
import ClassPatch.Proofs.Attempts
import ClassPatch.Proofs.Blame
import ClassPatch.Proofs.Dumps
import ClassPatch.Proofs.Described
import ClassPatch.Proofs.Deepest
import ClassPatch.Proofs.Emission
import ClassPatch.Proofs.Requests
import ClassPatch.Proofs.Positions
import ClassPatch.Proofs.Pulled
import ClassPatch.Proofs.Widening
import ClassPatch.Proofs.Together
import ClassPatch.Proofs.Hygiene
import ClassPatch.Proofs.Overlaps
import ClassPatch.Proofs.Unread
import ClassPatch.Proofs.Grammar
import ClassPatch.Proofs.Repacked
import ClassPatch.Proofs.Overwriting
import ClassPatch.Proofs.Limits
import ClassPatch.Proofs.ClassNames
import ClassPatch.Proofs.Declarations
import ClassPatch.Proofs.Listings
import ClassPatch.Proofs.Intact
