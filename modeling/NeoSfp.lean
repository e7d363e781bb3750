import NeoSfp.BusTransactions
import NeoSfp.WellFormed
import NeoSfp.Joining
import NeoSfp.Simulation
import NeoSfp.FormatterSinks
import NeoSfp.ForeignBytes
import NeoSfp.EraseOrder
import NeoSfp.BulkExtent
import NeoSfp.Reports
import NeoSfp.ReadCounts
import NeoSfp.ErrorPlaces
import NeoSfp.PayloadRoom
import NeoSfp.LineScreen
import NeoSfp.ProgramBytes
import NeoSfp.FormatterSafety
import NeoSfp.PlainText
import NeoSfp.ControlBytes
import NeoSfp.Answers
import NeoSfp.Scripts
import NeoSfp.FlashStore
import NeoSfp.TwiShell
import NeoSfp.ImageContents
import NeoSfp.AppImages
import NeoSfp.BootConsole
import NeoSfp.BootFlashChip
import NeoSfp.BootReload
import NeoSfp.BootSessions
