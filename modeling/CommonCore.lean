import CommonCore.Coop
import CommonCore.Pools
import CommonCore.Keyed
import CommonCore.Variant
import CommonCore.Signal
import CommonCore.Switch
import CommonCore.Graph
import CommonCore.LocalSwitch
import CommonCore.SwitchSpec
import CommonCore.SwitchRuns
import CommonCore.Settling
import CommonCore.Interlock
import CommonCore.Propagation
import CommonCore.ErrorState
import CommonCore.Telemetry
import CommonCore.Replicas
import CommonCore.BlockingQueue
import CommonCore.QueueThreads
import CommonCore.NestedMaps
import CommonCore.SettingsDelta
import CommonCore.Scheduler
import CommonCore.SchedulerRuns
import CommonCore.Escapes
import CommonCore.VariantProto
import CommonCore.FromChars
import CommonCore.Base64
import CommonCore.Patterns
import CommonCore.Literals
import CommonCore.ParserInput
import CommonCore.TokenParser
import CommonCore.JsonReader
import CommonCore.TokenGrammar
import CommonCore.JsonLexing
import CommonCore.JsonParsing
import CommonCore.JsonInputs
import CommonCore.JsonPlain
import CommonCore.JsonAgreement
import CommonCore.JsonWriter
import CommonCore.JsonRewriting
import CommonCore.VfsContext
import CommonCore.SchedulerHandles
import CommonCore.SchedulerWatchers
import CommonCore.Dicts
import CommonCore.CachingStore
import CommonCore.Argparse
import CommonCore.ArgumentUses
import CommonCore.PipeCapture
import CommonCore.Captures
import CommonCore.Durations
import CommonCore.DurationTexts
import CommonCore.FileTree
import CommonCore.VfsContainment
import CommonCore.Histories
import CommonCore.UpgradeProvider
import CommonCore.ZmqClient
import CommonCore.QueuedReplicas
import CommonCore.SignalStreams
import CommonCore.SignalMirrors
import CommonCore.InitialSync
import CommonCore.PyProtoValues
import CommonCore.DdsVariants
import CommonCore.VfsAttributes
import CommonCore.AvroValues
import CommonCore.NetconfigTypes
import CommonCore.NetconfigProto
import CommonCore.NetworkManager
import CommonCore.AutoState
import CommonCore.Gathering
import CommonCore.Ancestry
import CommonCore.Reevaluation
import CommonCore.EventProto
import CommonCore.SwitchProto
import CommonCore.LoggerTypes
import CommonCore.LoggerProto
import CommonCore.Alignments
import CommonCore.DateTime
import CommonCore.RotatingSinks
import CommonCore.AsyncSinks
import CommonCore.AvroProto
import CommonCore.ByteVectors
import CommonCore.Gregorian
import CommonCore.UtcTimes
import CommonCore.SchedulerRetries
import CommonCore.SchedulerSlots
import CommonCore.SchedulerSkew
import CommonCore.SwitchRemoval
import CommonCore.Unescapes
import CommonCore.SpecUpdates
import CommonCore.ScalarTimes
import CommonCore.SettingsPaths
import CommonCore.SettingsSet
import CommonCore.SignalConnections
import CommonCore.NumericViews
import CommonCore.Splitting
import CommonCore.CommonPrefixes
import CommonCore.LogExpiration
import CommonCore.AlignedTimes
import CommonCore.Agreement
import CommonCore.RemoteTargets
import CommonCore.SwitchDiversions
import CommonCore.SwitchPreemption
import CommonCore.UrlDecoding
import CommonCore.Expander
import CommonCore.Globbing
import CommonCore.TimeZones
import CommonCore.MapLookups
import CommonCore.UrlPaths
import CommonCore.MessageDecoder
import CommonCore.Dissecter
import CommonCore.EnumSymbols
import CommonCore.TimePointTexts
import CommonCore.CsvRows
import CommonCore.TokenBounds
import CommonCore.IntegerTexts
import CommonCore.Versions
import CommonCore.Formatter
import CommonCore.StatefulRuns
import CommonCore.YamlInputs
import CommonCore.SqliteRows
