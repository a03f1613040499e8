import BlendPlot.Closeness
import BlendPlot.Proofs.Printing
import BlendPlot.Proofs.StateText
import BlendPlot.Proofs.View
import BlendPlot.Session
import BlendPlot.Settings.Json
import BlendPlot.Proofs.Binding
import BlendPlot.Proofs.Names
import BlendPlot.Proofs.Reachable
import BlendPlot.Proofs.Fields
import BlendPlot.Proofs.Durability
import BlendPlot.Proofs.Meaning
import BlendPlot.Proofs.Agreement
import BlendPlot.Proofs.StorageFaults
import BlendPlot.Proofs.LastWrites
import BlendPlot.Proofs.Listing
import BlendPlot.Proofs.IdleSteps
import BlendPlot.Proofs.Scan
import BlendPlot.Proofs.Balance
import BlendPlot.Proofs.Lookahead
import BlendPlot.Proofs.Refusal
import BlendPlot.Proofs.Unmatched
import BlendPlot.Proofs.IdentifierRuns
import BlendPlot.Proofs.Nodes
import BlendPlot.Proofs.ConstantBlend
import BlendPlot.Proofs.Arithmetic
import BlendPlot.Proofs.Samples
import BlendPlot.Proofs.NotFinite
import BlendPlot.Proofs.SamplingGrid
import BlendPlot.Polyline.Json
import BlendPlot.Proofs.PlottedPoints
import BlendPlot.Proofs.WeightEnds
import BlendPlot.Proofs.WeightRange
import BlendPlot.Proofs.UnknownInput
import BlendPlot.Proofs.LatestCurve
import BlendPlot.Proofs.StoredMembers
import BlendPlot.Proofs.Blanks
import BlendPlot.Proofs.PolylineFields
import BlendPlot.Proofs.SettingsText
import BlendPlot.Proofs.Parentheses
import BlendPlot.Proofs.SignedConstants
import BlendPlot.Proofs.DepthCounter
import BlendPlot.Proofs.LogLines
import BlendPlot.Proofs.SampleCount
