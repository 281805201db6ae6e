import CliServer.Jobs.Slots
import CliServer.Jobs.Cancellation
import CliServer.Jobs.Leaks
import CliServer.Jobs.Lifecycle
import CliServer.Jobs.Timers
import CliServer.Jobs.Stopping
import CliServer.Jobs.Outcomes
import CliServer.Jobs.OptionUpdates
import CliServer.Jobs.Deletions
import CliServer.Jobs.Recovery
import CliServer.Jobs.RunCollection
import CliServer.Jobs.Statistics
import CliServer.Jobs.Occurrences
import CliServer.Jobs.Addresses
import CliServer.Server.AdminLogins
import CliServer.Users.Tokens
import CliServer.Users.Escalation
import CliServer.Users.Protection
import CliServer.Users.Memberships
import CliServer.Users.Namespace
import CliServer.Users.Tickets
import CliServer.Users.Lockout
import CliServer.Users.RateLimit
import CliServer.Users.Deletion
import CliServer.Users.Seeding
import CliServer.Users.ConcurrentMemberships
import CliServer.Users.Delivery
import CliServer.Commands.StreamProtocol
import CliServer.Users.Audience
import CliServer.Users.Closings
import CliServer.Shell.Connections
import CliServer.Commands.Modules
import CliServer.Commands.Authorization
import CliServer.Commands.ShellWords
import CliServer.Commands.ToolIdentity
import CliServer.Files.MoveLaw
import CliServer.Files.CopyLaw
import CliServer.Files.SqliteTextRuns
import CliServer.Files.Equivalence
import CliServer.Files.JsonPersistence
import CliServer.Files.SqliteRemove
import CliServer.Files.S3
import CliServer.Files.S3Pages
import CliServer.Files.S3Confinement
import CliServer.Lib.Utf8Strict
import CliServer.Mcp.FileTools
import CliServer.Commands.Pages
import CliServer.Files.HttpApi
import CliServer.Files.OsConfinement
import CliServer.Files.MemoryNodes
import CliServer.Files.FailedCalls
import CliServer.Lib.Substitution
import CliServer.Server.Redaction
import CliServer.Server.JsonSecrets
import CliServer.Lib.Backtracking
import CliServer.Server.QueryStrings
import CliServer.Server.QueryMasks
import CliServer.Server.QueryLeaks
import CliServer.Server.QuerySecrets
import CliServer.Explorer.RedisWords
import CliServer.Jobs.MemoryStorage
import CliServer.Lib.GraphSearch
import CliServer.Shell.Processes
import CliServer.Lib.CappedLog
import CliServer.Audit.MemoryStore
import CliServer.Audit.SharedStore
import CliServer.Lib.Columns
import CliServer.Server.LogHistogram
import CliServer.Explorer.MongoQueries
import CliServer.Mcp.CommandCalls
import CliServer.Mcp.Endpoint
import CliServer.Server.Origins
import CliServer.Files.NormalForms
import CliServer.Users.Identifiers
import CliServer.Shell.Terminal
import CliServer.Shell.Watch
import CliServer.Shell.Closing
import CliServer.Files.ChangeEvents
import CliServer.Users.PasswordHashes
import CliServer.Commands.Base64Command
import CliServer.Server.EventBus
import CliServer.Files.S3Isolation
import CliServer.Server.SameOrigin
import CliServer.Commands.Usage
import CliServer.Server.LogStream
