import Catlib.Logic.Compare
import Catlib.Logic.Loop
import Catlib.Logic.Bits
import Catlib.Tree.Linked
import Catlib.Tree.Zip
import Catlib.Tree.Rotate
import Catlib.Tree.Search
import Catlib.Tree.SearchTree
import Catlib.Tree.RedBlack
import Catlib.Tree.RedBlackInsert
import Catlib.Tree.RedBlackRemove
import Catlib.Tree.RedBlackRuns
import Catlib.Tree.Avl
import Catlib.Tree.AvlInsert
import Catlib.Tree.AvlRemove
import Catlib.Tree.AvlRuns
import Catlib.Tree.Depth
import Catlib.Tree.Splay
import Catlib.Tree.SplayMove
import Catlib.Tree.SplayRuns
import Catlib.Tree.Gone
import Catlib.Tree.Apply
import Catlib.Hash.Chain
import Catlib.Hash.Table
import Catlib.Container.Keyed
import Catlib.Container.Nodes
import Catlib.Container.Stduse
import Catlib.Container.Apply
import Catlib.Container.Clist
import Catlib.Sort.Cells
import Catlib.Sort.Simple
import Catlib.Sort.Heap
import Catlib.Sort.Quick
import Catlib.Sort.QuickRun
import Catlib.Sort.Bytes
import Catlib.Sort.Stable
import Catlib.Sort.Permute
import Catlib.BinaryHeap.Heap
import Catlib.BinaryHeap.Runs
import Catlib.Peg.Semantics
import Catlib.Peg.Cpg
import Catlib.Peg.Sound
import Catlib.Peg.Parse
import Catlib.Peg.Ends
import Catlib.Peg.Terminates
import Catlib.Crypto.Words
import Catlib.Crypto.Sha256
import Catlib.Crypto.Sha256Sound
import Catlib.Crypto.Siphash
import Catlib.Crypto.SiphashSound
import Catlib.Timer.Time
import Catlib.Timer.Dlist
import Catlib.Timer.DlistRuns
import Catlib.Graph.Arrays
import Catlib.Graph.Graph
import Catlib.Graph.GraphRuns
import Catlib.Pack.Pack
import Catlib.Pack.RoundTrip
import Catlib.Rex.Parse
import Catlib.Rex.Grammar
import Catlib.Rex.Lexical
import Catlib.Rex.Scan
import Catlib.Rex.Nodes
import Catlib.Rex.Groups
import Catlib.Rex.Steps
import Catlib.Rex.Accepts
import Catlib.Rex.Match
import Catlib.Rex.Slots
import Catlib.Rex.Sound
import Catlib.Rex.Shape
import Catlib.Rex.Compiled
import Catlib.Rex.Calls
import Catlib.Rex.Returns
import Catlib.Rex.Terminates
import Catlib.Rex.Captures
import Catlib.Text.Utf8
import Catlib.Text.Utf8Chars
import Catlib.Text.Utf32
import Catlib.Text.Utf16
import Catlib.Text.Csv
import Catlib.Logic.Runs
import Catlib.Event.Uevent
import Catlib.Event.Registered
import Catlib.Event.Dispatch
import Catlib.Event.Descriptors
import Catlib.Event.Signals
import Catlib.Crypto.Arc4
import Catlib.Hash.Division
import Catlib.Hash.Crc
import Catlib.Hash.Burst
import Catlib.Buffer.Memory
import Catlib.Buffer.Ring
import Catlib.Buffer.Dynbuf
import Catlib.Net.Socks5
import Catlib.Net.Io
import Catlib.Memory.Dbgmem
import Catlib.Memory.Pcache
import Catlib.Memory.PcacheRuns
import Catlib.Process.Pspawn
import Catlib.Process.PspawnSteps
import Catlib.Process.PspawnSound
import Catlib.Process.PspawnExact
import Catlib.Alloc.Ring
import Catlib.Alloc.Rings
import Catlib.Alloc.Tiling
import Catlib.Alloc.Blocks
import Catlib.Alloc.Tags
import Catlib.Alloc.FirstFit
import Catlib.Alloc.Steps
import Catlib.Alloc.FirstFitSteps
import Catlib.Alloc.FirstFitCalls
import Catlib.Alloc.FirstFitRun
import Catlib.Alloc.FirstFitRealloc
import Catlib.Bits.Archops
import Catlib.Alloc.Tlsf
import Catlib.Alloc.TlsfClass
import Catlib.Alloc.TlsfLists
import Catlib.Alloc.TlsfSteps
import Catlib.Alloc.TlsfAlloc
import Catlib.Alloc.TlsfCalls
import Catlib.Alloc.TlsfRealloc
import Catlib.Alloc.TlsfRun
import Catlib.Clist.Clist
import Catlib.Clist.Family
import Catlib.Clist.Merge
import Catlib.Clist.Sort
import Catlib.Text.Optparse
import Catlib.Text.OptparseRuns
import Catlib.Bits.Rank
import Catlib.Bits.Bitops
import Catlib.Bits.Compress
import Catlib.Bits.Permute
import Catlib.Matching.Words
import Catlib.Matching.Kmp
import Catlib.Matching.BoyerMoore
import Catlib.Matching.Skips
import Catlib.Text.Catstr
import Catlib.Rex.Anchor
import Catlib.Rex.Memory
import Catlib.Rex.Spans
import Catlib.Rex.Release
import Catlib.Rex.Cleanup
import Catlib.Logic.Traced
import Catlib.Logic.Items
import Catlib.Logic.CLiteral
import Catlib.Logic.Pieces
import Catlib.Peg.Getc
import Catlib.Peg.Emit
import Catlib.Crypto.Chunks
import Catlib.Pack.Packlen
import Catlib.Text.Utf8Room
import Catlib.Rex.Complete
import Catlib.Rex.Within
import Catlib.Rex.First
import Catlib.Lex.Lexer
import Catlib.Peg.Parser.Scan
import Catlib.Peg.Parser.Nodes
import Catlib.Peg.Parser.Grammar
import Catlib.Peg.Parser.Literal
import Catlib.Peg.Parser.Class
import Catlib.Peg.Parser.Reads
import Catlib.Peg.Parser.Turns
import Catlib.Peg.Parser.Store
import Catlib.Peg.Parser.Release
import Catlib.Peg.Parser.Ready
import Catlib.Peg.Parser.Grows
import Catlib.Peg.Parser.Returns
import Catlib.Text.Copy
import Catlib.Bits.Bitset
import Catlib.Bits.Divmod
import Catlib.Buffer.Grow
import Catlib.Buffer.RingAlloc
import Catlib.Container.PtrKeys
import Catlib.Graph.Failures
import Catlib.Logic.LongDivision
import Catlib.Logic.Moves
import Catlib.Logic.Numeral
import Catlib.Logic.Printf
import Catlib.Memory.Amm
import Catlib.Memory.Libc
import Catlib.Text.CatstrBuild
import Catlib.Text.Cset
import Catlib.Text.CsvQuoted
import Catlib.Text.CsvRecord
import Catlib.Text.EmitFormat
import Catlib.Text.EmitDivide
import Catlib.Text.EmitPrintf
import Catlib.Text.Ip6
import Catlib.Text.OptparseLong
import Catlib.Text.Scan
import Catlib.Text.Strtol
import Catlib.Text.StrtolExact
import Catlib.Timer.Long
import Catlib.Matching.SuffixBuild
