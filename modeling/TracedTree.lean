import TracedTree.Main
import TracedTree.Proofs.Balanced
import TracedTree.Proofs.KeyOrder
import TracedTree.Proofs.Insert
import TracedTree.Proofs.Remove
import TracedTree.Proofs.Check
import TracedTree.Proofs.Tree
import TracedTree.Proofs.Run
import TracedTree.Proofs.Recording
import TracedTree.Proofs.Forecast
import TracedTree.Proofs.Playback
import TracedTree.Proofs.History
import TracedTree.Proofs.Outcome
import TracedTree.Proofs.Rebuild
import TracedTree.Proofs.Session
import TracedTree.Proofs.Fulfilment
import TracedTree.Proofs.Number
import TracedTree.Proofs.Alphabet
import TracedTree.Proofs.Letters
import TracedTree.Proofs.Words
import TracedTree.Proofs.NextWords
import TracedTree.Proofs.Batch
import TracedTree.Proofs.TextBatches
import TracedTree.Proofs.Distinct
import TracedTree.Proofs.Relabel
import TracedTree.Proofs.Restore
import TracedTree.Proofs.Decimal
import TracedTree.Proofs.Quoted
import TracedTree.Proofs.Json
import TracedTree.Proofs.Decoder
import TracedTree.Proofs.RoundTrip
import TracedTree.Proofs.FrameText
import TracedTree.Proofs.Frames
import TracedTree.Proofs.InsertFrames
import TracedTree.Proofs.RepairFrames
import TracedTree.Proofs.RemoveFrames
import TracedTree.Proofs.Consistency
import TracedTree.Proofs.Identities
import TracedTree.Proofs.Highlights
import TracedTree.Proofs.InsertHighlights
import TracedTree.Proofs.RepairHighlights
import TracedTree.Proofs.RemoveHighlights
import TracedTree.Proofs.Focus
import TracedTree.Proofs.Splicing
import TracedTree.Proofs.GuardedInsert
import TracedTree.Proofs.GuardedRepair
import TracedTree.Proofs.SingleRepair
import TracedTree.Proofs.GuardedRemove
import TracedTree.Proofs.Rewinding
import TracedTree.Proofs.EdgeNames
import TracedTree.Proofs.Descent
import TracedTree.Proofs.Costs
import TracedTree.Proofs.Probes
import TracedTree.Proofs.SearchMarks
import TracedTree.Proofs.SearchWay
import TracedTree.Proofs.Lookup
import TracedTree.Proofs.LengthSearch
import TracedTree.Proofs.Drawing
import TracedTree.Proofs.RandomTexts
import TracedTree.Proofs.RandomNumbers
import TracedTree.Proofs.Agreement
import TracedTree.Proofs.Occupancy
import TracedTree.Proofs.OrderChange
import TracedTree.Proofs.Removable
