import ObjcDyld.Weak.EntryInvariant
import ObjcDyld.Weak.Table
import ObjcDyld.Weak.TableInvariant
import ObjcDyld.Weak.Reclamation
import ObjcDyld.Retain.Object
import ObjcDyld.Retain.SideTable
import ObjcDyld.Retain.Root
import ObjcDyld.Retain.Counter
import ObjcDyld.Retain.Runs
import ObjcDyld.Autorelease.Page
import ObjcDyld.Autorelease.Pool
import ObjcDyld.Autorelease.PageChain
import ObjcDyld.Common.Unwinding
import ObjcDyld.Autorelease.Simulation
import ObjcDyld.Autorelease.Runs
import ObjcDyld.MethodCache.Buckets
import ObjcDyld.MethodCache.Insert
import ObjcDyld.MethodCache.Invariant
import ObjcDyld.MethodCache.Contents
import ObjcDyld.MethodCache.Calls
import ObjcDyld.MethodCache.Runs
import ObjcDyld.MethodCache.Overflow
import ObjcDyld.Common.SpareBits
import ObjcDyld.SlideInfo.Chains
import ObjcDyld.SlideInfo.Walk
import ObjcDyld.SlideInfo.Linking
import ObjcDyld.SlideInfo.PageStarts
import ObjcDyld.SlideInfo.WrittenPages
import ObjcDyld.SlideInfo.RebasedPages
import ObjcDyld.SlideInfo.RoundTrip
import ObjcDyld.SlideInfo.Pointers64
import ObjcDyld.SlideInfo.Pointers32
import ObjcDyld.ChainedFixups.Pointer
import ObjcDyld.SlideInfo.Version3
import ObjcDyld.SlideInfo.Authenticated
import ObjcDyld.ChainedFixups.Walk
import ObjcDyld.ChainedFixups.Adjustor
import ObjcDyld.ChainedFixups.Rebases
import ObjcDyld.Common.Loops
import ObjcDyld.SplitSeg.Adjust
import ObjcDyld.SplitSeg.Retarget
import ObjcDyld.SplitSeg.Runs
import ObjcDyld.Common.Repeats
import ObjcDyld.Unloading.Images
import ObjcDyld.Unloading.Reaper
import ObjcDyld.Unloading.Calls
import ObjcDyld.Unloading.Runs
import ObjcDyld.Closures.RebaseRuns
import ObjcDyld.Closures.RebaseOverflow
import ObjcDyld.Closures.OffsetPatterns
import ObjcDyld.Closures.BindPatterns
import ObjcDyld.Closures.TextFixups
import ObjcDyld.Closures.ObjCFixups
import ObjcDyld.Closures.LoadedImages
import ObjcDyld.Common.PostOrder
import ObjcDyld.Closures.InitOrderRuns
import ObjcDyld.Closures.InitOrderLists
import ObjcDyld.Closures.WeakDefinitions
import ObjcDyld.Common.Rankings
import ObjcDyld.Closures.WeakLookups
import ObjcDyld.Common.HashDisplace
import ObjcDyld.ObjcTables.PerfectHashes
import ObjcDyld.ObjcTables.Searches
import ObjcDyld.ObjcTables.Mapping
import ObjcDyld.ObjcTables.Hashing
import ObjcDyld.ObjcTables.Returns
import ObjcDyld.SharedCache.SelfContained
import ObjcDyld.SharedCache.SelfContainedRuns
import ObjcDyld.SharedCache.LeafEviction
import ObjcDyld.Common.TriangularProbe
import ObjcDyld.Containers.MultiMap
import ObjcDyld.Containers.MultiMapRuns
import ObjcDyld.Common.WordRanges
import ObjcDyld.MachO.Segments
import ObjcDyld.MachO.LinkeditLayout
import ObjcDyld.ChainedFixups.Payload
import ObjcDyld.ChainedFixups.WellFormed
import ObjcDyld.ChainedFixups.StartsWalk
import ObjcDyld.ChainedFixups.Imports
import ObjcDyld.ChainedFixups.Soundness
import ObjcDyld.ChainedFixups.BindOpcodes
import ObjcDyld.ChainedFixups.ChainStarts
import ObjcDyld.ChainedFixups.ChainStartsRuns
import ObjcDyld.ChainedFixups.FaithfulStarts
import ObjcDyld.Initializers.Steps
import ObjcDyld.Initializers.Calls
import ObjcDyld.Initializers.Runs
import ObjcDyld.Containers.MapRuns
import ObjcDyld.Categories.Unattached
import ObjcDyld.Categories.UnattachedRuns
import ObjcDyld.LoadMethods.Runs
import ObjcDyld.LoadMethods.Removals
import ObjcDyld.Common.LinkedChains
import ObjcDyld.Trampolines.Slots
import ObjcDyld.Trampolines.FreeLists
import ObjcDyld.Trampolines.AvailablePages
import ObjcDyld.Trampolines.Runs
import ObjcDyld.Trampolines.LostSlots
import ObjcDyld.Common.Bindings
import ObjcDyld.Synchronized.Locks
import ObjcDyld.Synchronized.Invariant
import ObjcDyld.Synchronized.Acquire
import ObjcDyld.Synchronized.Bookkeeping
import ObjcDyld.Initialize.Ownership
import ObjcDyld.Initialize.Runs
import ObjcDyld.Common.SortedSearch
import ObjcDyld.MethodLists.Lists
import ObjcDyld.Categories.Attach
import ObjcDyld.Categories.Overrides
import ObjcDyld.Common.Sorting
import ObjcDyld.Protocols.Protocols
import ObjcDyld.Protocols.Fixup
import ObjcDyld.Protocols.Adoption
import ObjcDyld.Protocols.Building
import ObjcDyld.Protocols.ExtendedTypes
import ObjcDyld.MethodLists.Additions
import ObjcDyld.MethodLists.Bulk
import ObjcDyld.Common.Moves
import ObjcDyld.IvarLayouts.Bitmaps
import ObjcDyld.IvarLayouts.Splats
import ObjcDyld.Ivars.Additions
import ObjcDyld.Retain.Pinned
import ObjcDyld.Ivars.Sliding
import ObjcDyld.TypeEncodings.Grammar
import ObjcDyld.TypeEncodings.Parsing
import ObjcDyld.PropertyAttributes.Blocks
import ObjcDyld.PropertyAttributes.RoundTrip
import ObjcDyld.Retain.WeakFlag
import ObjcDyld.Weak.Variables
import ObjcDyld.Weak.VariablesInvariant
import ObjcDyld.Weak.Dangling
import ObjcDyld.SharedCache.ThumbBranches
import ObjcDyld.ChainWalk.Walk
import ObjcDyld.Common.Buckets
import ObjcDyld.ImageList.ImmutableMemory
import ObjcDyld.ChainWalk.Expected
import ObjcDyld.ChainWalk.Links
import ObjcDyld.ChainWalk.OneChain
import ObjcDyld.ChainWalk.Runs
import ObjcDyld.Closures.InterposingTuples
import ObjcDyld.Closures.InterposingRuns
import ObjcDyld.CodeSignatures.Blobs
import ObjcDyld.CodeSignatures.Exactness
import ObjcDyld.Common.TopDown
import ObjcDyld.ImageList.Dependents
import ObjcDyld.Common.Records
import ObjcDyld.ImageList.MirroredInfos
import ObjcDyld.MachO.ClosestSymbol
import ObjcDyld.MachO.FunctionStarts
import ObjcDyld.MachO.LoadCommands
import ObjcDyld.SharedCache.CommandStripping
import ObjcDyld.SharedCache.SelectorLoads
import ObjcDyld.MachO.FatFiles
import ObjcDyld.MachO.FatSlices
import ObjcDyld.Common.OpcodeStreams
import ObjcDyld.FixupOpcodes.Interpreters
import ObjcDyld.FixupOpcodes.Safety
import ObjcDyld.Common.OpcodeCalls
import ObjcDyld.FixupOpcodes.Enumeration
import ObjcDyld.Common.CheckedRuns
import ObjcDyld.OldFixups.Tables
import ObjcDyld.OldFixups.Bounds
import ObjcDyld.Tries.Offsets
import ObjcDyld.IvarLayouts.LayoutStrings
import ObjcDyld.LoadPaths.Environment
import ObjcDyld.ImageList.LoadOrder
import ObjcDyld.Classes.Dispatch
