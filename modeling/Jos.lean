import Jos.BitFields
import Jos.Bits
import Jos.Boot
import Jos.BootChain
import Jos.BootSwitch
import Jos.Bracket
import Jos.CgaInit
import Jos.Console
import Jos.ConsoleInput
import Jos.ConsoleRoll
import Jos.Cpu
import Jos.Devices
import Jos.Disk
import Jos.EntryPgdir
import Jos.EntrySwitch
import Jos.FormatAppend
import Jos.FormatCount
import Jos.FormatError
import Jos.FormatEscape
import Jos.FormatNumber
import Jos.FormatOctal
import Jos.FormatPrecision
import Jos.FormatRight
import Jos.FormatSafe
import Jos.FormatScan
import Jos.FormatSign
import Jos.FormatSink
import Jos.FormatString
import Jos.FormatText
import Jos.FormatWidth
import Jos.Init
import Jos.InputLoss
import Jos.InputQueue
import Jos.Kbd
import Jos.KbdHistory
import Jos.KbdLocks
import Jos.KbdModifiers
import Jos.KbdQueue
import Jos.KbdTyping
import Jos.Kdebug
import Jos.KdebugBounds
import Jos.KdebugRegion
import Jos.Loop
import Jos.Memmove
import Jos.Memory
import Jos.Memset
import Jos.Monitor
import Jos.MonitorReply
import Jos.MonitorShell
import Jos.Numeral
import Jos.Overlay
import Jos.Paging
import Jos.Panic
import Jos.Printf
import Jos.Printfmt
import Jos.Readline
import Jos.ReadlineScreen
import Jos.Readseg
import Jos.Ring
import Jos.Roll
import Jos.Rounding
import Jos.Runcmd
import Jos.Runs
import Jos.Segdesc
import Jos.SerialLog
import Jos.Snprintf
import Jos.StabBounds
import Jos.StabExact
import Jos.StabRegion
import Jos.StabSearch
import Jos.StringCompare
import Jos.StringCopy
import Jos.StringFns
import Jos.Strtol
import Jos.StrtolGrammar
import Jos.System
import Jos.SystemReboot
import Jos.SystemTyping
import Jos.Terminal
import Jos.Transcript
import Jos.Words
