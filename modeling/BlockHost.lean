import BlockHost.Rig
import BlockHost.CallScripts.Run
import BlockHost.Decimal.Positional
import BlockHost.Text.Blank
import BlockHost.Proofs.Actions
import BlockHost.Proofs.HeapAccess
import BlockHost.Proofs.SizeClasses
import BlockHost.Proofs.HeapTiling
import BlockHost.Proofs.HeapBooks
import BlockHost.Proofs.HeapBlocks
import BlockHost.Proofs.HeapLeases
import BlockHost.Proofs.HeapMoves
import BlockHost.Proofs.HeapAccounts
import BlockHost.Proofs.HeapRuns
import BlockHost.Proofs.HeapPlans
import BlockHost.Proofs.HighWater
import BlockHost.Proofs.GrowthExchanges
import BlockHost.Proofs.Appending
import BlockHost.Proofs.Containment
import BlockHost.Proofs.ReadingBack
import BlockHost.Proofs.Trees
import BlockHost.Proofs.TreeReading
import BlockHost.Atom.Cursor
import BlockHost.Proofs.Iteration
import BlockHost.Proofs.Backlogs
import BlockHost.Proofs.Shelves
import BlockHost.Proofs.BacklogRuns
import BlockHost.Proofs.Echo
import BlockHost.Proofs.EchoRuns
import BlockHost.Proofs.HostCalls
import BlockHost.Proofs.Filling
import BlockHost.Proofs.BlockOutputs
import BlockHost.Proofs.CallEnds
import BlockHost.Proofs.NewHosts
import BlockHost.Proofs.Recording
import BlockHost.Proofs.Disabling
import BlockHost.Proofs.CutReading
import BlockHost.Proofs.Counting
import BlockHost.Proofs.Periods
import BlockHost.Proofs.CheckedReading
import BlockHost.Proofs.CheckedWriting
import BlockHost.Proofs.CheckedTexts
import BlockHost.Proofs.CheckedShelves
import BlockHost.Proofs.CheckedCalls
import BlockHost.Proofs.CheckedRuns
import BlockHost.Proofs.Unbroken
import BlockHost.Proofs.Crashes
import BlockHost.Proofs.LiveBlocks
import BlockHost.Proofs.Ownership
import BlockHost.Proofs.Leaks
import BlockHost.Proofs.Swapping
import BlockHost.Proofs.Losses
import BlockHost.Proofs.Telling
import BlockHost.Proofs.Tallies
import BlockHost.Proofs.Gates
import BlockHost.Proofs.Reuse
import BlockHost.Proofs.WordClasses
import BlockHost.Proofs.WordBlocks
import BlockHost.Proofs.WordCalls
import BlockHost.Proofs.Latching
import BlockHost.Proofs.Refusals
import BlockHost.Proofs.BlockSteps
import BlockHost.Proofs.Custody
import BlockHost.Proofs.Exhaustion
import BlockHost.Proofs.HeaderWords
import BlockHost.Proofs.StalePointers
import BlockHost.Proofs.Brackets
import BlockHost.Proofs.TimeWalk
import BlockHost.Proofs.Enclosing
import BlockHost.Proofs.AccessPaths
import BlockHost.Proofs.Registries
import BlockHost.Proofs.Messages
import BlockHost.Proofs.Restarting
import BlockHost.Proofs.CallEffects
import BlockHost.Proofs.KindTables
import BlockHost.Proofs.Numbering
import BlockHost.Proofs.CutTexts
import BlockHost.Proofs.TextBuffers
import BlockHost.Proofs.SavedStates
import BlockHost.Proofs.HeapLayout
import BlockHost.Proofs.SizeBrackets
import BlockHost.Proofs.TimeLines
