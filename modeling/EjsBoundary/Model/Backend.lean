import EjsBoundary.Model.Http
import EjsBoundary.Model.SolverEngine

/-!
# `EjsBoundary.Model.Backend`: from a watch URL to the responses

The model of `solver_boundary_py_backend.cpp`. `load_player_code_from_watch_url_core` makes two
calls of `https_request`: one for the watch page, and one for `base.js`, whose path stands in the
page. `PlayerLoad` keeps the exchanges of both and the reference that was found between them.

The file system is a function from paths (`Files`), and the identity of the cache that is made
for the assets is a parameter.
-/

set_option autoImplicit false

namespace EjsBoundary.Model

open EjsBoundary.Lib

/-- `validate_requests_or_throw`. -/
def validateRequests (requests : List SolverRequest) : Except Bytes Unit :=
  requests.forM fun r => do
    if r.type ≠ lit "sig" ∧ r.type ≠ lit "n" then
      .error (lit "Unsupported request type: " ++ r.type)
    if r.challenge = [] then
      .error (lit "Empty challenge for request type: " ++ r.type)

/-! ### URLs -/

/-- `^https://([^/]+)(/.*)$`. -/
def watchUrlPattern : Regex := httpsPattern (.group 1 hostPattern) (.group 2 pathPattern)

/-- What the two functions below share: a group of the watch URL. -/
def watchUrlGroup (i : Nat) (watchUrl : Bytes) : Except Bytes Bytes :=
  match regexMatch watchUrlPattern watchUrl with
  | none => .error (lit "Unsupported watch_url")
  | some m => .ok ((m.lookup i).getD [])

/-- `extract_host_from_watch_url`. -/
def extractHostFromWatchUrl (watchUrl : Bytes) : Except Bytes Bytes := watchUrlGroup 1 watchUrl

/-- `extract_path_from_watch_url`. -/
def extractPathFromWatchUrl (watchUrl : Bytes) : Except Bytes Bytes := watchUrlGroup 2 watchUrl

/-- `"jsUrl":"([^"]+)"`. -/
def jsUrlPattern : Regex :=
  .seq (.literal (lit "\"jsUrl\":\""))
    (.seq (.group 1 (.plus (· != 0x22))) (.literal (lit "\"")))

/-- `^https://[^/]+(/.*)$`. -/
def absoluteJsPattern : Regex := httpsPattern hostPattern (.group 1 pathPattern)

/-- The reference in the watch page: `m[1].str()`. -/
def findJsUrl (html : Bytes) : Except Bytes Bytes :=
  match regexSearch jsUrlPattern html with
  | none => .error (lit "jsUrl not found in watch HTML")
  | some m => .ok ((m.lookup 1).getD [])

/-- The path of the reference. Of an absolute one the host is dropped. -/
def jsPathOf (jsUrl : Bytes) : Except Bytes Bytes :=
  if (lit "https://").isPrefixOf jsUrl then
    match regexMatch absoluteJsPattern jsUrl with
    | none => .error (lit "Unexpected absolute jsUrl format")
    | some m2 => .ok ((m2.lookup 1).getD [])
  else .ok jsUrl

/-- `extract_js_path_from_watch_html`. -/
def extractJsPathFromWatchHtml (html : Bytes) : Except Bytes Bytes := do
  let jsUrl ← findJsUrl html
  jsPathOf jsUrl

/-! ### Loading the player -/

/-- What a load exchanged, the reference it found in the watch page, and how it ended. -/
structure PlayerLoad where
  watch : List Exchange := []
  jsUrl : Option Bytes := none
  js : List Exchange := []
  result : Option (Except Bytes Bytes)

/-- The headers a watch page is asked for with. -/
def watchHeaders : Bytes :=
  lit "Accept-Language: en-US,en;q=0.9\r\nReferer: https://www.youtube.com/\r\n"

/-- The headers `base.js` is asked for with. -/
def jsHeaders : Bytes := lit "Referer: https://www.youtube.com/\r\n"

/-- The response of a call, when it is one with status 200. -/
def okResponse (what : Bytes) (result : Option (Except Bytes HttpResponse)) :
    Option (Except Bytes HttpResponse) :=
  result.map fun result => do
    let r ← result
    if r.status = 200 then .ok r
    else .error (what ++ lit " returned HTTP " ++ lit (toString r.status))

section
variable (trim : Bytes → Bytes) (server : Server)

/-- What follows the call for the watch page. The reference that
`extract_js_path_from_watch_html` finds is kept beside the path it makes of it. -/
def loadAfterWatch (host : Bytes) (call : HttpCall) : PlayerLoad :=
  match okResponse (lit "watch page") call.2 with
  | none => { watch := call.1, result := none }
  | some (.error what) => { watch := call.1, result := some (.error what) }
  | some (.ok r) =>
    let jsUrl := (findJsUrl r.body).toOption
    match extractJsPathFromWatchHtml r.body with
    | .error what => { watch := call.1, jsUrl, result := some (.error what) }
    | .ok jsPath =>
      -- The host is still that of the watch URL, wherever the page came from.
      let jsCall := httpsRequest trim server (lit "GET") jsHeaders [] call.1 host jsPath
      { watch := call.1, jsUrl, js := jsCall.1
        result := (okResponse (lit "base.js") jsCall.2).map fun r => r.map (·.body) }

/-- `load_player_code_from_watch_url_core`. -/
def loadPlayerCodeFromWatchUrl (watchUrl : Bytes) : PlayerLoad :=
  match extractHostFromWatchUrl watchUrl with
  | .error what => { result := some (.error what) }
  | .ok host =>
    match extractPathFromWatchUrl watchUrl with
    | .error what => { result := some (.error what) }
    | .ok path =>
      loadAfterWatch trim server host
        (httpsRequest trim server (lit "GET") watchHeaders [] [] host path)

end

/-! ### Assets and entry points -/

/-- What stands at a path. `regular none` is a file that cannot be opened. -/
inductive FileEntry where
  | missing
  | special
  | regular (contents : Option Bytes)

abbrev Files := Bytes → FileEntry

/-- `require_regular_file`. -/
def requireRegularFile (files : Files) (path label : Bytes) : Except Bytes Unit :=
  match files path with
  | .missing => .error (label ++ lit " nicht gefunden: " ++ path)
  | .special => .error (label ++ lit " ist keine reguläre Datei: " ++ path)
  | .regular _ => .ok ()

/-- `read_text_file`. -/
def readTextFile (files : Files) (path : Bytes) : Except Bytes Bytes :=
  match files path with
  | .regular (some contents) => .ok contents
  | _ => .error (lit "Konnte Datei nicht lesen: " ++ path)

section
variable (files : Files) (cache : CacheId)

/-- `load_solver_boundary_assets_from_code_core`. -/
def loadSolverBoundaryAssetsFromCode (playerCode solverDir meriyahPath astringPath : Bytes) :
    Except Bytes SolverAssets := do
  let libPath := solverDir ++ lit "/lib.min.js"
  let corePath := solverDir ++ lit "/core.min.js"
  requireRegularFile files meriyahPath (lit "meriyah.umd.js")
  requireRegularFile files astringPath (lit "astring.min.js")
  requireRegularFile files libPath (lit "lib.min.js")
  requireRegularFile files corePath (lit "core.min.js")
  let meriyahCode ← readTextFile files meriyahPath
  let astringCode ← readTextFile files astringPath
  let libCode ← readTextFile files libPath
  let coreCode ← readTextFile files corePath
  return { meriyahCode, astringCode, libCode, coreCode, playerCode, cache := some cache }

/-- `load_solver_boundary_assets_core`. -/
def loadSolverBoundaryAssets (playerPath solverDir meriyahPath astringPath : Bytes) :
    Except Bytes SolverAssets := do
  requireRegularFile files playerPath (lit "player/base.js")
  let playerCode ← readTextFile files playerPath
  loadSolverBoundaryAssetsFromCode files cache playerCode solverDir meriyahPath astringPath

variable {Ctx : Type} (js : Js Ctx)

/-- `solve_requests_core`. -/
def solveRequestsCore (playerPath solverDir meriyahPath astringPath : Bytes)
    (requests : List SolverRequest) : Except Bytes (List SolverResponse) := do
  if requests = [] then
    return []
  validateRequests requests
  let assets ← loadSolverBoundaryAssets files cache playerPath solverDir meriyahPath astringPath
  let engine ← SolverEngine.new js assets
  engine.solve js requests

/-- `solve_requests_from_watch_core`. The load is `none` when nothing was loaded. -/
def solveRequestsFromWatchCore (trim : Bytes → Bytes) (server : Server)
    (watchUrl solverDir meriyahPath astringPath : Bytes) (requests : List SolverRequest) :
    Option PlayerLoad × Option (Except Bytes (List SolverResponse)) :=
  if requests = [] then (none, some (.ok []))
  else match validateRequests requests with
    | .error what => (none, some (.error what))
    | .ok () =>
      let load := loadPlayerCodeFromWatchUrl trim server watchUrl
      (some load, load.result.map fun result => do
        let playerCode ← result
        let assets ← loadSolverBoundaryAssetsFromCode files cache playerCode solverDir
          meriyahPath astringPath
        let engine ← SolverEngine.new js assets
        engine.solve js requests)

end

end EjsBoundary.Model
