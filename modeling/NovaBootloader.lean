import NovaBootloader.StepSystem
import NovaBootloader.PacketMemory
import NovaBootloader.Protection
import NovaBootloader.DownloadSafety
import NovaBootloader.RefusedDownload
import NovaBootloader.UploadAddress
import NovaBootloader.Session
import NovaBootloader.CoalescedEvents
import NovaBootloader.DeviceAddress
import NovaBootloader.Alignment
import NovaBootloader.BootChain
import NovaBootloader.DfuLoop
import NovaBootloader.ErrorLatch
import NovaBootloader.Forgetting
import NovaBootloader.UploadWalk
import NovaBootloader.CompletionRace
import NovaBootloader.CommandGrammar
import NovaBootloader.OptionRebuild
import NovaBootloader.Packetisation
import NovaBootloader.FlashWrite
import NovaBootloader.UploadEnd
import NovaBootloader.AddressArithmetic
import NovaBootloader.ClockFallback
import NovaBootloader.SectorLayout
import NovaBootloader.PacketCopy
import NovaBootloader.Startup
import NovaBootloader.Pins
import NovaBootloader.Ep0Handshake
import NovaBootloader.ControlTransfer
import NovaBootloader.DfuProtocol
import NovaBootloader.FlashReplay
import NovaBootloader.FlashWear
import NovaBootloader.Reports
import NovaBootloader.Manifestation
import NovaBootloader.FirmwareUpdate
import NovaBootloader.PowerCut
import NovaBootloader.Secrecy
import NovaBootloader.Recovery
import NovaBootloader.OptionLifetime
import NovaBootloader.DeviceLife
