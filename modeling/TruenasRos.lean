import TruenasRos.Walk.KeyOrder
import TruenasRos.Walk.Paging
import TruenasRos.Http.Stages
import TruenasRos.Http.Streaming
import TruenasRos.Http.Splitting
import TruenasRos.Uring.Ownership
import TruenasRos.Uring.Wake
import TruenasRos.UringFs.Mints
import TruenasRos.UringFs.ChildFds
import TruenasRos.UringFs.Sweep
import TruenasRos.UringFs.Answers
import TruenasRos.Audit.Reading
import TruenasRos.Log.Journal
import TruenasRos.SyncFs.Cookie
import TruenasRos.Mount.Descendants
import TruenasRos.UringFs.RoundTrip
import TruenasRos.UringFs.Confinement
import TruenasRos.Api.Answered
import TruenasRos.Api.Reassembly
import TruenasRos.Api.Closing
import TruenasRos.Http.Grammar
import TruenasRos.Http.Dechunk
import TruenasRos.Net.BodyPool
import TruenasRos.Acl.RoundTrip
import TruenasRos.Walk.Token
import TruenasRos.Config.Injection
import TruenasRos.Net.ConnTable
import TruenasRos.Net.Draining
import TruenasRos.Net.Spread
import TruenasRos.Acl.Heirs
import TruenasRos.Acl.Writing
import TruenasRos.Acl.Nfs4Xattr
import TruenasRos.Ws.Handshake
import TruenasRos.Config.Dictionary
import TruenasRos.Uring.BufPool
import TruenasRos.Signal.Strict
