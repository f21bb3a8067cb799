import CajaSegura.Async.Program
import CajaSegura.Async.Execution
import CajaSegura.Codec.Base64
import CajaSegura.Codec.Json
import CajaSegura.Codec.JsonCut
import CajaSegura.Codec.JsonRoundTrip
import CajaSegura.Codec.Utf8
import CajaSegura.Codec.DateTime
import CajaSegura.Async.Pool
import CajaSegura.Async.Within
import CajaSegura.Platform.DartError
import CajaSegura.Platform.FileSystem
import CajaSegura.Models.VaultFile
import CajaSegura.Platform.AesGcm
import CajaSegura.Platform.Device
import CajaSegura.Services.CryptoService
import CajaSegura.Services.VaultRepository
import CajaSegura.Platform.FileRules
import CajaSegura.Platform.Rules
import CajaSegura.Properties.Envelope
import CajaSegura.Services.VaultRules
import CajaSegura.Properties.Recovery
import CajaSegura.Services.ListRules
import CajaSegura.Properties.Crash
import CajaSegura.Services.AuthService
import CajaSegura.Properties.Session
import CajaSegura.Main
import CajaSegura.Properties.AutoLock
import CajaSegura.Properties.Decoding
import CajaSegura.Properties.Exposure
import CajaSegura.Properties.Rollback
import CajaSegura.Services.SoleRules
import CajaSegura.Properties.Chronology
import CajaSegura.Properties.Deletion
import CajaSegura.Properties.Refinement
import CajaSegura.Screens.HomeRules
import CajaSegura.Properties.Exclusion
import CajaSegura.Properties.Gate
import CajaSegura.Async.Ghost
import CajaSegura.Services.CompanyRules
import CajaSegura.Properties.Replacement
import CajaSegura.Properties.Race
import CajaSegura.Services.BackgroundService
import CajaSegura.Properties.Destination
import CajaSegura.Services.BackgroundRules
import CajaSegura.Properties.Background
import CajaSegura.Properties.Startup
import CajaSegura.Async.Stretch
import CajaSegura.Properties.Erasure
import CajaSegura.Properties.Opening
import CajaSegura.Properties.Interruption
import CajaSegura.Properties.Containment
import CajaSegura.Screens.LockScreen
import CajaSegura.Screens.SettingsScreen
import CajaSegura.Properties.Disposal
import CajaSegura.Properties.Lifetime
import CajaSegura.Properties.Sealing
import CajaSegura.Properties.SealedCalls
import CajaSegura.Properties.Tampering
