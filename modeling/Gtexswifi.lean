import Gtexswifi.Agps.Agent
import Gtexswifi.Agps.Channel
import Gtexswifi.Agps.CutLines
import Gtexswifi.Agps.Dispatch
import Gtexswifi.Agps.DispatchExactness
import Gtexswifi.Agps.LineExactness
import Gtexswifi.Agps.LineOrigins
import Gtexswifi.Agps.LineReader
import Gtexswifi.Agps.MalformedMessages
import Gtexswifi.Agps.MessageRoundTrip
import Gtexswifi.Agps.NetworkMessages
import Gtexswifi.Agps.OverlongLines
import Gtexswifi.Agps.Parser
import Gtexswifi.Agps.QueueContents
import Gtexswifi.Agps.ResponseMatching
import Gtexswifi.Agps.Uplink
import Gtexswifi.Agps.WorkQueue
import Gtexswifi.Bluetooth.Assignments
import Gtexswifi.Bluetooth.Conf
import Gtexswifi.Bluetooth.ConfLines
import Gtexswifi.Bluetooth.ConfSpacing
import Gtexswifi.Bluetooth.ConfToWire
import Gtexswifi.Bluetooth.FailedRead
import Gtexswifi.Bluetooth.FrameExactness
import Gtexswifi.Bluetooth.LongLines
import Gtexswifi.Bluetooth.MacAddress
import Gtexswifi.Bluetooth.Marlin
import Gtexswifi.Bluetooth.ParseNumber
import Gtexswifi.Bluetooth.ReceiveBuffer
import Gtexswifi.Bluetooth.Reference
import Gtexswifi.Bluetooth.Relay
import Gtexswifi.Bluetooth.Server
import Gtexswifi.Bluetooth.ServerRuns
import Gtexswifi.Bluetooth.Sitm
import Gtexswifi.Bluetooth.Sr2351
import Gtexswifi.Bluetooth.TableWalks
import Gtexswifi.Bluetooth.Turn
import Gtexswifi.Bluetooth.Upio
import Gtexswifi.Bluetooth.Vendor
import Gtexswifi.Bluetooth.VendorPort
import Gtexswifi.Bluetooth.VendorRequests
import Gtexswifi.Dtbtool.ChipInfo
import Gtexswifi.Dtbtool.ChipList
import Gtexswifi.Dtbtool.ExactOutput
import Gtexswifi.Dtbtool.IdProperty
import Gtexswifi.Dtbtool.Layout
import Gtexswifi.Dtbtool.MasterDtb
import Gtexswifi.Dtbtool.Outcomes
import Gtexswifi.Dtbtool.Scan
import Gtexswifi.Efuse.EfuseHw
import Gtexswifi.Efuse.SecureBoot
import Gtexswifi.Efuse.StoredHashes
import Gtexswifi.Gnss.Answers
import Gtexswifi.Gnss.Callbacks
import Gtexswifi.Gnss.CaptureExactness
import Gtexswifi.Gnss.CaptureWindows
import Gtexswifi.Gnss.CommandArguments
import Gtexswifi.Gnss.CwDataCapture
import Gtexswifi.Gnss.Gating
import Gtexswifi.Gnss.GpsPcMode
import Gtexswifi.Gnss.NmeaTokenizer
import Gtexswifi.Gnss.Reports
import Gtexswifi.Library.BlockHash
import Gtexswifi.Library.Bytes
import Gtexswifi.Library.Columns
import Gtexswifi.Library.Euclid
import Gtexswifi.Library.Exponents
import Gtexswifi.Library.FileSystem
import Gtexswifi.Library.FileTree
import Gtexswifi.Library.Lines
import Gtexswifi.Library.LinkedItems
import Gtexswifi.Library.LinkedNodes
import Gtexswifi.Library.Loops
import Gtexswifi.Library.Memory
import Gtexswifi.Library.Numerals
import Gtexswifi.Library.Pieces
import Gtexswifi.Library.Radix
import Gtexswifi.Library.Regions
import Gtexswifi.Library.Sampling
import Gtexswifi.Library.SortedTable
import Gtexswifi.Library.Tokens
import Gtexswifi.Library.Transition
import Gtexswifi.Library.Ways
import Gtexswifi.Power.PowerScx35
import Gtexswifi.Power.Profiles
import Gtexswifi.Power.Touchkeys
import Gtexswifi.SignImage.Aliasing
import Gtexswifi.SignImage.BigInt
import Gtexswifi.SignImage.BigIntSpec
import Gtexswifi.SignImage.ChainOfTrust
import Gtexswifi.SignImage.ContentCertificate
import Gtexswifi.SignImage.Division
import Gtexswifi.SignImage.DivisionWithRemainder
import Gtexswifi.SignImage.Encryption
import Gtexswifi.SignImage.Euc
import Gtexswifi.SignImage.Exponentiation
import Gtexswifi.SignImage.FailedRuns
import Gtexswifi.SignImage.GeneratedKeys
import Gtexswifi.SignImage.HashCollisions
import Gtexswifi.SignImage.HashRounds
import Gtexswifi.SignImage.HashStreaming
import Gtexswifi.SignImage.InsertHeader
import Gtexswifi.SignImage.KeyCertificates
import Gtexswifi.SignImage.KeyGeneration
import Gtexswifi.SignImage.KeySizes
import Gtexswifi.SignImage.LimbArithmetic
import Gtexswifi.SignImage.LongOperands
import Gtexswifi.SignImage.MadeCertificates
import Gtexswifi.SignImage.ModemScan
import Gtexswifi.SignImage.Multiplication
import Gtexswifi.SignImage.NormalForm
import Gtexswifi.SignImage.NormalResults
import Gtexswifi.SignImage.Numeral
import Gtexswifi.SignImage.Opening
import Gtexswifi.SignImage.OversizedKeys
import Gtexswifi.SignImage.PaddingAcceptance
import Gtexswifi.SignImage.Pkcs1
import Gtexswifi.SignImage.Pkcs1Type2
import Gtexswifi.SignImage.Pointers
import Gtexswifi.SignImage.PrimalityTest
import Gtexswifi.SignImage.PrvEnc
import Gtexswifi.SignImage.Reduction
import Gtexswifi.SignImage.RoundTrip
import Gtexswifi.SignImage.Rsa
import Gtexswifi.SignImage.Sha256
import Gtexswifi.SignImage.Sign
import Gtexswifi.SignImage.SignThenVerify
import Gtexswifi.SignImage.SignedCertificate
import Gtexswifi.SignImage.SignedImage
import Gtexswifi.SignImage.SigningSuccess
import Gtexswifi.SignImage.StackDependence
import Gtexswifi.SignImage.StageLinking
import Gtexswifi.SignImage.SubtractionScans
import Gtexswifi.SignImage.Verify
import Gtexswifi.SignImage.WordSubtraction
import Gtexswifi.SystemOptimizer.Beneath
import Gtexswifi.SystemOptimizer.Carried
import Gtexswifi.SystemOptimizer.Confinement
import Gtexswifi.SystemOptimizer.Course
import Gtexswifi.SystemOptimizer.Crushing
import Gtexswifi.SystemOptimizer.Deletion
import Gtexswifi.SystemOptimizer.DryRun
import Gtexswifi.SystemOptimizer.Footprint
import Gtexswifi.SystemOptimizer.FreedSpace
import Gtexswifi.SystemOptimizer.KeptFiles
import Gtexswifi.SystemOptimizer.Locales
import Gtexswifi.SystemOptimizer.Optimizer
import Gtexswifi.SystemOptimizer.Pruning
import Gtexswifi.SystemOptimizer.Resources
import Gtexswifi.SystemOptimizer.Selection
import Gtexswifi.SystemOptimizer.Sizes
import Gtexswifi.SystemOptimizer.Visits
