import Osxie.Rpc.RoundTrip
import Osxie.DuctTape.TimerCover
import Osxie.Server.Exec
import Osxie.DuctTape.Block
import Osxie.Server.Delivery
import Osxie.Server.KqchanProcess
import Osxie.Server.KernelAsync
import Osxie.DuctTape.WaitQueues
import Osxie.DuctTape.MutexWakeups
import Osxie.Dmg.CacheTransparency
import Osxie.Dmg.AdcWindow
import Osxie.Server.SignalStacks
import Osxie.Mldr.SocketRuns
import Osxie.Dmg.PartitionReads
import Osxie.Dmg.ForkReads
import Osxie.Dmg.ZlibReads
import Osxie.Carbon.ResourceCaches
import Osxie.Carbon.LoadedResources
import Osxie.Coredump.Fits
import Osxie.Libsimple.Once
import Osxie.Libsimple.RwlockWakeups
import Osxie.Libsimple.CondvarWait
import Osxie.Server.KeptRequests
import Osxie.Startup.PrefixOwner
import Osxie.Shellspawn.Delivery
import Osxie.Shellspawn.ShellQuoting
import Osxie.Startup.ShellLoopFaithful
import Osxie.Rpc.MessageAlgebra
import Osxie.Server.Availability
import Osxie.Server.MessageQueue
import Osxie.WindowServer.EventPipeline
import Osxie.Server.Malformed
import Osxie.Server.S2CRestore
import Osxie.CoreAudio.AudioConverter
import Osxie.Server.AsyncWriter
import Osxie.Server.RegistryFactory
import Osxie.Server.StackPool
import Osxie.DuctTape.Regions
import Osxie.Dmg.BTreeEnds
import Osxie.Dmg.Positions
import Osxie.Server.PathCalls
import Osxie.Dmg.Guid
import Osxie.Dmg.LruOrder
import Osxie.Carbon.GroupMembership
import Osxie.Mldr.RootPaths
import Osxie.Coredump.ExtraMappings
import Osxie.LaunchServices.BundleEvents
import Osxie.Carbon.CollationKeys
import Osxie.CoreServices.StreamReferences
import Osxie.LaunchServices.TypeQueries
import Osxie.Xtrace.CallTrace
import Osxie.Startup.ExitStatus
import Osxie.Carbon.Arithmetic
import Osxie.LaunchServices.FourCharCodes
import Osxie.Xtrace.ThreadLocals
import Osxie.Xtrace.TraceStrings
import Osxie.Dmg.Catalog
import Osxie.Dmg.CatalogAgreement
import Osxie.Dmg.NamedForks
