import TermOutline.Line.Listing
import TermOutline.Nest.Render
import TermOutline.Parse
import TermOutline.Proofs.Arranging
import TermOutline.Proofs.Canonical
import TermOutline.Proofs.Diagnosis
import TermOutline.Proofs.Events
import TermOutline.Proofs.Gate
import TermOutline.Proofs.Histories
import TermOutline.Proofs.Inlining
import TermOutline.Proofs.Joining
import TermOutline.Proofs.LineEndings
import TermOutline.Proofs.LineNests
import TermOutline.Proofs.LineTables
import TermOutline.Proofs.Locality
import TermOutline.Proofs.LongestMatch
import TermOutline.Proofs.Losslessness
import TermOutline.Proofs.Openings
import TermOutline.Proofs.Painting
import TermOutline.Proofs.Positions
import TermOutline.Proofs.Refusals
import TermOutline.Proofs.RoundTrip
import TermOutline.Proofs.Separation
import TermOutline.Settings.File
