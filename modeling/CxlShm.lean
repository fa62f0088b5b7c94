import CxlShm.Lib.Chain
import CxlShm.Lib.Stacks
import CxlShm.Lib.DoublyLinked
import CxlShm.Lib.Counting
import CxlShm.Lib.Reachability
import CxlShm.Lib.RefCounting
import CxlShm.Lib.Ring
import CxlShm.Lib.Fuel
import CxlShm.Lib.Ancestors
import CxlShm.Reference.Machine
import CxlShm.Reference.Callers
import CxlShm.Reference.Refinement
import CxlShm.Reference.Trial
import CxlShm.Reference.Accounting
import CxlShm.Reference.Eras
import CxlShm.Reference.Packing
import CxlShm.Reference.Handles
import CxlShm.Recovery.Redo
import CxlShm.Recovery.Detection
import CxlShm.Recovery.Unlink
import CxlShm.Recovery.Machine
import CxlShm.Recovery.StaleLog
import CxlShm.Recovery.Freshness
import CxlShm.Recovery.Clearing
import CxlShm.Recovery.Leak
import CxlShm.Recovery.Registration
import CxlShm.Recovery.SegmentSweep
import CxlShm.Recovery.DeadMemory
import CxlShm.Recovery.Verdict
import CxlShm.Alloc.RemoteFree
import CxlShm.Alloc.Addresses
import CxlShm.Alloc.Heap
import CxlShm.Alloc.Blocks
import CxlShm.Alloc.Geometry
import CxlShm.Alloc.PageQueues
import CxlShm.Alloc.Pages
import CxlShm.Alloc.Ownership
import CxlShm.Alloc.Partition
import CxlShm.Alloc.Requests
import CxlShm.Alloc.Exhaustion
import CxlShm.Alloc.FreshObjects
import CxlShm.Alloc.FindFree
import CxlShm.Alloc.RecoveryFree
import CxlShm.Alloc.BinLists
import CxlShm.Queue.Machine
import CxlShm.Queue.Fifo
import CxlShm.Queue.Crash
import CxlShm.Queue.SenderSweep
import CxlShm.Queue.Sharing
import CxlShm.Release.TestFree
import CxlShm.Release.LastDrop
import CxlShm.Release.Cascade
import CxlShm.Release.Agreement
import CxlShm.Release.Slot
import CxlShm.Release.Rounds
import CxlShm.Release.Collection
import CxlShm.Release.Exit
import CxlShm.Queue.Registry
import CxlShm.Queue.Registered
import CxlShm.Handover.Machine
import CxlShm.Handover.Places
import CxlShm.Handover.Control
import CxlShm.Handover.Moves
import CxlShm.Handover.Owner
import CxlShm.Handover.Client
import CxlShm.Handover.Pages
import CxlShm.Handover.Turns
import CxlShm.Handover.Recovery
import CxlShm.Handover.Safety
import CxlShm.Hash.Index
import CxlShm.Hash.Area
import CxlShm.Hash.Crash
