import Libc370.Lib.Machine
import Libc370.Lib.Lines
import Libc370.Lib.Loop
import Libc370.Lib.Limbs
import Libc370.Ctype
import Libc370.Int64
import Libc370.Stdio.File
import Libc370.Stdio.Flush
import Libc370.Stdio.Getc
import Libc370.Stdio.ByteView
import Libc370.Stdio.Dblcvt
import Libc370.Stdio.Delivery
import Libc370.Stdio.Fseek
import Libc370.Stdio.Seek
import Libc370.Stdio.Putc
import Libc370.Stdio.Output
import Libc370.Stdio.TextLines
import Libc370.Stdio.WriteErrors
import Libc370.Printf.Examin
import Libc370.Printf.Drivers
import Libc370.Printf.Agreement
import Libc370.Printf.Conversion
import Libc370.Printf.Integers
import Libc370.Printf.Plain
import Libc370.Scanf.Engine
import Libc370.Scanf.Lockstep
import Libc370.Scanf.Safety
import Libc370.Scanf.Streams
import Libc370.Scanf.RoundTrip
import Libc370.Int64.Objects
import Libc370.Lib.Calendar
import Libc370.Time.Scalar
import Libc370.Time.Timegm
import Libc370.Time.Time64
import Libc370.Time.Gmtime64
import Libc370.Time.Local
import Libc370.Time.SafeYear
import Libc370.Time.Local64
import Libc370.Lib.Bytes
import Libc370.Link.Rldr
import Libc370.Link.Relocation
import Libc370.Lib.Assembly
import Libc370.Jes2.Jesprb
import Libc370.Jes2.RecordWalk
import Libc370.Jes2.BlockWalk
import Libc370.Jes2.Jesprint
import Libc370.Lib.Segments
import Libc370.Bsam.Spanned
import Libc370.Bsam.Reassembly
import Libc370.Lib.Words
import Libc370.Idcams
import Libc370.Lib.Runs
import Libc370.Ext.Ary
import Libc370.Ext.Stored
import Libc370.Mvs.Mutex
import Libc370.Mvs.MutexOwners
import Libc370.Mvs.Timer
import Libc370.Mvs.TimerIds
import Libc370.Mvs.TimerPass
import Libc370.Env
import Libc370.Mvs.Recovery
import Libc370.Mvs.Threads
import Libc370.Mvs.ThreadQuiesce
import Libc370.Mvs.ThreadQueue
import Libc370.Mvs.ThreadStorage
import Libc370.Mvs.Exit
import Libc370.Int64.Isqrt
import Libc370.Int64.Strings
import Libc370.Lib.Bisect
import Libc370.Lib.Wildcard
import Libc370.Ext.Patmat
import Libc370.Time.Difftime64
import Libc370.Time.Strftime
import Libc370.Stdlib.Qsort
import Libc370.Stdio.VarRecords
import Libc370.Lib.Storage
import Libc370.Ext.Tok
import Libc370.Mvs.Listds
import Libc370.Mvs.ListdsDelivery
import Libc370.Mvs.Dsalc
import Libc370.Mvs.DsalcUnits
import Libc370.Mvs.DsalcKeywords
import Libc370.Mvs.DsalcValues
import Libc370.Stdlib.Strtod
import Libc370.Stdlib.Strtol
import Libc370.Printf.HexFloat
import Libc370.Jes2.Intxt
import Libc370.Mvs.Mtt
import Libc370.Mvs.Osxcalc
import Libc370.Net.Inet
import Libc370.Stdio.OpenMode
import Libc370.Mvs.Walkpd
import Libc370.Mvs.Start
import Libc370.Dynit.Dynrq
import Libc370.Dynit.Dynalloc
import Libc370.Bsam.Access
import Libc370.Bsam.BlockView
import Libc370.Stdio.ByteFile
import Libc370.Stdio.PlusStream
import Libc370.Stdio.PlusRuns
import Libc370.Stdio.PlusRecords
import Libc370.Lib.Memory
import Libc370.Stdlib.Heap
import Libc370.Stdlib.HeapRuns
import Libc370.Lib.Keyed
import Libc370.Net.Sockets
import Libc370.Net.SocketRuns
import Libc370.Jes2.Callback
import Libc370.Jes2.DataSets
import Libc370.Jes2.JobSets
import Libc370.Jes2.JobListing
import Libc370.Jes2.Jesjob
