import Rijndael.Store.Session
import Rijndael.Store.Cycle
import Rijndael.Foreign.Calls
import Rijndael.Main
import Rijndael.Proofs.ByteField
import Rijndael.Proofs.ByteTable
import Rijndael.Proofs.Columns
import Rijndael.Proofs.HandleHistory
import Rijndael.Proofs.KeyExpansion
import Rijndael.Proofs.Ledger
import Rijndael.Proofs.RoundTrip
import Rijndael.Proofs.ScheduleWords
import Rijndael.Proofs.SlotTable
import Rijndael.Proofs.Standard
import Rijndael.Proofs.StandardCipher
import Rijndael.Proofs.StoreChange
import Rijndael.Proofs.Substitution
import Rijndael.Proofs.SlotStates
import Rijndael.Foreign.Course
import Rijndael.Proofs.OtherStores
import Rijndael.Proofs.PackedHandle
import Rijndael.Proofs.Register
import Rijndael.Proofs.BranchNumber
import Rijndael.Proofs.ActiveBytes
import Rijndael.Proofs.KeyWindow
import Rijndael.Proofs.DestroyedHandles
import Rijndael.Proofs.Capacity
import Rijndael.Proofs.PlainKeys
import Rijndael.Proofs.Leases
import Rijndael.Proofs.IdleRequests
import Rijndael.Proofs.CallerMemory
import Rijndael.Proofs.HexGrammar
import Rijndael.Proofs.ParsedTexts
import Rijndael.Proofs.Actions
import Rijndael.Proofs.PrintedBlocks
import Rijndael.Proofs.Diffusion
import Rijndael.Proofs.LogLines
import Rijndael.Proofs.AuditTrail
import Rijndael.Proofs.Keystream
import Rijndael.Proofs.NeutralCommands
import Rijndael.Proofs.Turns
import Rijndael.Proofs.SampleChecks
import Rijndael.Proofs.PeakUse
import Rijndael.Proofs.DirectDecryption
import Rijndael.LogFilter
import Rijndael.Proofs.FieldLoops
import Rijndael.Proofs.LogFilter
