import Minitalk.Lib.Bits
import Minitalk.Lib.Frame
import Minitalk.Lib.Heap
import Minitalk.Lib.Machine
import Minitalk.Lib.Buffer
import Minitalk.Lib.CText
import Minitalk.Lib.CPrintf
import Minitalk.Server.State
import Minitalk.Server.Handler
import Minitalk.Server.Session
import Minitalk.Client.Transmission
import Minitalk.Server.Codec
import Minitalk.Server.Representation
import Minitalk.Server.Answers
import Minitalk.Server.Isolation
import Minitalk.Server.Cleanup
import Minitalk.Server.Monitor
import Minitalk.Log.Format
import Minitalk.Log.Automaton
import Minitalk.Log.Rendering
import Minitalk.Log.Grammar
import Minitalk.Log.Directive
import Minitalk.Log.Layout
import Minitalk.Log.Numbers
import Minitalk.Log.Strings
import Minitalk.Printf.Convert
import Minitalk.Printf.Parser
import Minitalk.Printf.Ending
import Minitalk.Lib.Transition
import Minitalk.Client.Process
import Minitalk.System.Model
import Minitalk.System.View
import Minitalk.System.Link
import Minitalk.System.ClientSteps
import Minitalk.System.ServerSteps
import Minitalk.System.Delivery
import Minitalk.Lib.Cells
import Minitalk.Lib.Implementation
import Minitalk.Lib.CIndex
import Minitalk.Lib.Linked
import Minitalk.Lib.Terminated
import Minitalk.Lib.Lines
import Minitalk.Libft.Atoi
import Minitalk.Libft.Vector
import Minitalk.Libft.DoublyList
import Minitalk.Libft.CircularList
import Minitalk.Libft.GetNextLine
import Minitalk.Client.Parser
import Minitalk.Lib.CInt
import Minitalk.Lib.Radix
import Minitalk.Printf.Numbers
import Minitalk.Printf.Directive
import Minitalk.Libft.AtoiBase
import Minitalk.Libft.Itoa
import Minitalk.Libft.PutnbrBase
import Minitalk.Lib.Runs
import Minitalk.Libft.Split
import Minitalk.Libft.Strtok
import Minitalk.Lib.Ownership
import Minitalk.Libft.MemoryTracker
import Minitalk.Libft.Memmove
import Minitalk.Lib.Search
import Minitalk.Libft.Strnstr
import Minitalk.Lib.Program
import Minitalk.Lib.Bitonic
import Minitalk.Lib.FinalPlaces
import Minitalk.Lib.Ranks
import Minitalk.Lib.CArray
import Minitalk.Libft.BinarySearch
import Minitalk.Lib.Merging
import Minitalk.Libft.SortedMerge
import Minitalk.Libft.Sort.InsertionSort
import Minitalk.Lib.HeapOrder
import Minitalk.Libft.Sort.IntroSort
import Minitalk.Libft.Sort.BitonicSort
import Minitalk.Libft.Sort.CocktailShakerSort
import Minitalk.Libft.Sort.CombSort
import Minitalk.Libft.Sort.CountingSort
import Minitalk.Libft.Sort.CycleSort
import Minitalk.Libft.Sort.PigeonholeSort
import Minitalk.Libft.Sort.RadixSort
import Minitalk.Libft.Sort.HybridSort
import Minitalk.Libft.Sort.StoogeSort
import Minitalk.Libft.Sort.ThreeWayMergeSort
import Minitalk.Libft.Sort.TimSort
import Minitalk.Libft.Sort.MergeSort
import Minitalk.Libft.Math.Sqrt
import Minitalk.Libft.Math.Divide
import Minitalk.Libft.Math.IsPrime
import Minitalk.Libft.Sort.CartesianSort
import Minitalk.Libft.Sort.Hybrid2Sort
import Minitalk.Libft.Sort.StrandSort
import Minitalk.Libft.Sort.ChunkSort
import Minitalk.Log.Bounds
import Minitalk.Log.Conversion
import Minitalk.Server.Assemblers
import Minitalk.System.Checksum
import Minitalk.System.Handling
import Minitalk.System.Exclusion
import Minitalk.System.Record
import Minitalk.System.Termination
import Minitalk.System.Progress
import Minitalk.System.Turns
import Minitalk.Client.Loops
import Minitalk.Client.Timing
import Minitalk.System.Loops
import Minitalk.Server.Release
import Minitalk.Printf.Format
import Minitalk.Libft.Queue
import Minitalk.Libft.Lists
import Minitalk.Libft.Sort.ExchangeSorts
import Minitalk.Libft.Sort.SelectionSorts
import Minitalk.Libft.Sort.QuickSort
import Minitalk.Libft.Sort.ShellSort
import Minitalk.Libft.Sort.TagSort
import Minitalk.Libft.Sort.MiniPushSwap
import Minitalk.Libft.Swap
import Minitalk.Libft.Strlcpy
import Minitalk.Libft.Math.Fprime
