import SecLsmManager.Lib.Cells
import SecLsmManager.Lib.Escape
import SecLsmManager.Lib.Overwrite
import SecLsmManager.Lib.Ledger
import SecLsmManager.Lib.Transaction
import SecLsmManager.Lib.Shared
import SecLsmManager.Lib.History
import SecLsmManager.Base
import SecLsmManager.Protocol.Prot
import SecLsmManager.Protocol.Output
import SecLsmManager.Protocol.Input
import SecLsmManager.Protocol.Receiver
import SecLsmManager.Protocol.Transport
import SecLsmManager.Protocol.Stream
import SecLsmManager.Context.PathStd
import SecLsmManager.Context.PathScan
import SecLsmManager.Context.Context
import SecLsmManager.Context.PathLength
import SecLsmManager.Context.PathNormal
import SecLsmManager.Context.PathAgain
import SecLsmManager.Context.Invariant
import SecLsmManager.Context.Settings
import SecLsmManager.Context.Admission
import SecLsmManager.Context.Relative
import SecLsmManager.Action.Action
import SecLsmManager.Action.Authorisation
import SecLsmManager.Client.Utf8
import SecLsmManager.Client.Utf8Strict
import SecLsmManager.Client.Client
import SecLsmManager.Client.Replies
import SecLsmManager.Client.Requests
import SecLsmManager.Client.Session
import SecLsmManager.Client.Connection
import SecLsmManager.Client.Language
import SecLsmManager.Policy.System
import SecLsmManager.Policy.Cynagora
import SecLsmManager.Policy.Transaction
import SecLsmManager.Policy.Smack
import SecLsmManager.Policy.Effects
import SecLsmManager.Policy.Rules
import SecLsmManager.Policy.Atomicity
import SecLsmManager.Policy.Lifecycle
import SecLsmManager.Policy.Statuses
import SecLsmManager.Policy.Labelling
import SecLsmManager.Policy.Cleanup
import SecLsmManager.Protocol.Composition
import SecLsmManager.Protocol.Putx
import SecLsmManager.Client.Operations
import SecLsmManager.Client.Display
import SecLsmManager.Client.Success
import SecLsmManager.Client.Replay
import SecLsmManager.Templating.Mustach
import SecLsmManager.Templating.Engine
import SecLsmManager.Templating.Template
import SecLsmManager.Templating.Rendering
import SecLsmManager.Templating.Process
import SecLsmManager.Templating.Pieces
import SecLsmManager.Templating.ReadFile
import SecLsmManager.Server.Server
import SecLsmManager.Server.Connected
import SecLsmManager.Server.Listening
import SecLsmManager.Policy.Selinux
import SecLsmManager.Policy.SelinuxFiles
import SecLsmManager.Policy.SelinuxInstall
import SecLsmManager.Policy.SelinuxRules
import SecLsmManager.Policy.SelinuxRemoval
import SecLsmManager.Policy.FileContexts
import SecLsmManager.Policy.Labels
import SecLsmManager.Library.Library
import SecLsmManager.Client.Reply
import SecLsmManager.Library.Joint
import SecLsmManager.Library.InStep
import SecLsmManager.Library.Completion
import SecLsmManager.Library.Sockets
import SecLsmManager.Library.Turns
import SecLsmManager.Library.ErrorMessage
import SecLsmManager.Tool.Command
import SecLsmManager.Tool.Input
import SecLsmManager.Daemon.Identifiers
import SecLsmManager.Daemon.Offline
import SecLsmManager.Daemon.EnsureDirectory
import SecLsmManager.Client.Manager
import SecLsmManager.Client.Refinement
import SecLsmManager.Library.Remote
import SecLsmManager.Library.Network
import SecLsmManager.Server.Events
import SecLsmManager.Server.Service
import SecLsmManager.Policy.Confined
import SecLsmManager.Policy.Footprint
import SecLsmManager.Policy.AppTemplate
import SecLsmManager.Policy.AppAccess
import SecLsmManager.Server.Effects
import SecLsmManager.Server.Confinement
import SecLsmManager.Server.Authorship
import SecLsmManager.Policy.Listing
import SecLsmManager.Server.SelinuxAuthorship
import SecLsmManager.Server.Shutoff
