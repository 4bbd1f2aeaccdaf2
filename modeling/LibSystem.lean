import LibSystem.Access
import LibSystem.Additions
import LibSystem.Core.Environ
import LibSystem.Core.Ioctl
import LibSystem.Core.MallocZone
import LibSystem.Core.Mutex
import LibSystem.Core.MutexAlone
import LibSystem.Core.MutexCalls
import LibSystem.Core.MutexExclusion
import LibSystem.Core.MutexHalts
import LibSystem.Core.MutexMemory
import LibSystem.Core.MutexStale
import LibSystem.Core.Offsets
import LibSystem.Core.Open
import LibSystem.Core.Sbrk
import LibSystem.Core.Speeds
import LibSystem.Core.Termios
import LibSystem.Core.ThreadKeys
import LibSystem.Core.Tty
import LibSystem.Core.Uuid
import LibSystem.Core.UuidText
import LibSystem.Graph
import LibSystem.Leb128
import LibSystem.Lnk.AddImage
import LibSystem.Lnk.BindCalls
import LibSystem.Lnk.BindOrder
import LibSystem.Lnk.BindProgram
import LibSystem.Lnk.BindStream
import LibSystem.Lnk.Binding
import LibSystem.Lnk.CallerPaths
import LibSystem.Lnk.Chain
import LibSystem.Lnk.CircularOrder
import LibSystem.Lnk.ClassicBind
import LibSystem.Lnk.ClassicWords
import LibSystem.Lnk.CommandBounds
import LibSystem.Lnk.CommandWalks
import LibSystem.Lnk.Content
import LibSystem.Lnk.Debug
import LibSystem.Lnk.DependencyTables
import LibSystem.Lnk.Dladdr
import LibSystem.Lnk.Dlopen
import LibSystem.Lnk.Elf
import LibSystem.Lnk.Expansions
import LibSystem.Lnk.ExportTrie
import LibSystem.Lnk.FilePaths
import LibSystem.Lnk.FirstError
import LibSystem.Lnk.Fixups
import LibSystem.Lnk.FixupPlaces
import LibSystem.Lnk.Image
import LibSystem.Lnk.ImageList
import LibSystem.Lnk.InitOrder
import LibSystem.Lnk.Initialize
import LibSystem.Lnk.LazyBind
import LibSystem.Lnk.LoadEnds
import LibSystem.Lnk.Loader
import LibSystem.Lnk.Loads
import LibSystem.Lnk.LocalRelocs
import LibSystem.Lnk.Lookup
import LibSystem.Lnk.LookupProgram
import LibSystem.Lnk.MappedContent
import LibSystem.Lnk.Mapping
import LibSystem.Lnk.Opcodes
import LibSystem.Lnk.Ordinals
import LibSystem.Lnk.ParseOrder
import LibSystem.Lnk.Parsed
import LibSystem.Lnk.ProgramVars
import LibSystem.Lnk.ReExports
import LibSystem.Lnk.Rebase
import LibSystem.Lnk.RebaseProgram
import LibSystem.Lnk.Region
import LibSystem.Lnk.Resolve
import LibSystem.Lnk.RunOnce
import LibSystem.Lnk.Runtime
import LibSystem.Lnk.SegmentIndices
import LibSystem.Lnk.Slides
import LibSystem.Lnk.SpecialOrdinals
import LibSystem.Lnk.StreamBounds
import LibSystem.Lnk.StreamProgram
import LibSystem.Lnk.StreamReads
import LibSystem.Lnk.SymbolSearch
import LibSystem.Lnk.Symbols
import LibSystem.Lnk.TocBounds
import LibSystem.Lnk.TrieTable
import LibSystem.Lnk.TrieWalk
import LibSystem.Lnk.Util
import LibSystem.Lnk.Widths
import LibSystem.LowLevelLock
import LibSystem.Memory
import LibSystem.Observe
import LibSystem.Outcome
import LibSystem.Overlays
import LibSystem.Piles
import LibSystem.Rounds
import LibSystem.Run
import LibSystem.Search
import LibSystem.SortedSearch
import LibSystem.SpinLock
import LibSystem.StraightLine
import LibSystem.Translation
import LibSystem.Trie
import LibSystem.Turns
import LibSystem.Walk
import LibSystem.Words
import LibSystem.Lnk.StateChange
import LibSystem.Core.ThreadOnce
import LibSystem.Exclusives
import LibSystem.Core.OSAtomic
import LibSystem.Core.BestFit
import LibSystem.Core.Heads
import LibSystem.Core.Heap
import LibSystem.Core.HeapMalloc
import LibSystem.Core.Requests
import LibSystem.LinkedRing
import LibSystem.DigitalTree
import LibSystem.Tiling
import LibSystem.Core.BinIndex
import LibSystem.Core.Bins
import LibSystem.Core.TreeLinks
import LibSystem.Core.TreeBins
import LibSystem.Core.SmallBins
import LibSystem.Core.BinRuns
import LibSystem.Core.Malloc
import LibSystem.Core.Layout
import LibSystem.Core.HeapFree
import LibSystem.Core.HeapRuns
import LibSystem.Core.Calloc
