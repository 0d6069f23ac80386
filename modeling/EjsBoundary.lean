import EjsBoundary.Lib.Bytes
import EjsBoundary.Lib.StringMap
import EjsBoundary.Lib.FormQuery
import EjsBoundary.Lib.Json
import EjsBoundary.Lib.JsonNumber
import EjsBoundary.Lib.Run
import EjsBoundary.Lib.Loop
import EjsBoundary.Lib.Snapshots
import EjsBoundary.Lib.Utf8
import EjsBoundary.Lib.Utf16
import EjsBoundary.Lib.Binary64
import EjsBoundary.Lib.EcmaScript
import EjsBoundary.Lib.Regex
import EjsBoundary.Lib.Rfc3986
import EjsBoundary.Lib.HttpMessage
import EjsBoundary.Lib.Framing
import EjsBoundary.Lib.ResponseHead
import EjsBoundary.Lib.ChunkedCoding
import EjsBoundary.Lib.WebSite
import EjsBoundary.Lib.Ownership
import EjsBoundary.Lib.Custody
import EjsBoundary.Model.UrlQuery
import EjsBoundary.Model.Types
import EjsBoundary.Model.SolverEngine
import EjsBoundary.Model.SolverThreads
import EjsBoundary.Model.QuickJsJson
import EjsBoundary.Model.QuickJsStrings
import EjsBoundary.Model.QuickJsHandles
import EjsBoundary.Model.QuickJsOwners
import EjsBoundary.Model.Http
import EjsBoundary.Model.HttpHandles
import EjsBoundary.Model.Backend
import EjsBoundary.Model.PyMethods
import EjsBoundary.Model.PyReferences
import EjsBoundary.Model.CommandLine
import EjsBoundary.Proofs.UrlQuery
import EjsBoundary.Proofs.QueryRewrite
import EjsBoundary.Proofs.SolveReply
import EjsBoundary.Proofs.SolveFormatUrl
import EjsBoundary.Proofs.CacheTransparency
import EjsBoundary.Proofs.SolverThreads
import EjsBoundary.Proofs.SolverRuns
import EjsBoundary.Proofs.SolverReuse
import EjsBoundary.Proofs.SolverSnapshots
import EjsBoundary.Proofs.QuickJsJson
import EjsBoundary.Proofs.QuickJsStrings
import EjsBoundary.Proofs.QuickJsHandles
import EjsBoundary.Proofs.QuickJsOwners
import EjsBoundary.Proofs.Http
import EjsBoundary.Proofs.References
import EjsBoundary.Proofs.RequestInjection
import EjsBoundary.Proofs.RequestFraming
import EjsBoundary.Proofs.DecodeChunked
import EjsBoundary.Proofs.ChunkedDetection
import EjsBoundary.Proofs.RedirectChain
import EjsBoundary.Proofs.Location
import EjsBoundary.Proofs.Truncation
import EjsBoundary.Proofs.PlayerLoad
import EjsBoundary.Proofs.HttpHandles
import EjsBoundary.Proofs.PyMethods
import EjsBoundary.Proofs.PyReferences
import EjsBoundary.Proofs.MethodRefinement
import EjsBoundary.Proofs.CommandLine
