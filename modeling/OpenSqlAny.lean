import OpenSqlAny.RowSafety
import OpenSqlAny.RowCoefficients
import OpenSqlAny.RowDates
import OpenSqlAny.RowLayouts
import OpenSqlAny.StagedStability
import OpenSqlAny.CarrierLayouts
import OpenSqlAny.RecordBoundaries
import OpenSqlAny.SegmentWriting
import OpenSqlAny.PermutationCycle
import OpenSqlAny.ApFallbacks
import OpenSqlAny.ApDiagnostics
import OpenSqlAny.ApPeaks
import OpenSqlAny.ApExactVotes
import OpenSqlAny.ApBlockRanges
import OpenSqlAny.ApCaseSwitch
import OpenSqlAny.SlotDeletions
import OpenSqlAny.SlotRows
import OpenSqlAny.SlotListings
import OpenSqlAny.PageLinkWalks
import OpenSqlAny.IntegrityChecks
import OpenSqlAny.PageChecksums
import OpenSqlAny.PageHistograms
import OpenSqlAny.Superblocks
import OpenSqlAny.SegmentHeaps
import OpenSqlAny.SegmentErrors
import OpenSqlAny.SegmentLimits
import OpenSqlAny.ApRekeying
import OpenSqlAny.ApOutcomes
import OpenSqlAny.ApDamage
import OpenSqlAny.StagedErrors
import OpenSqlAny.RowWriting
import OpenSqlAny.SlotPrinting
import OpenSqlAny.LinkWriting
import OpenSqlAny.DatabaseValues
