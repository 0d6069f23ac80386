import EjsBoundary.Lib.Regex
import EjsBoundary.Lib.Utf8
import EjsBoundary.Model.Types

/-!
# `EjsBoundary.Model.Http`: HTTPS requests and redirects

The model of `http_utils.cpp`. The network is a `Server`: what happens to a request, given the
name the connection is made to, the bytes that are written and everything that was exchanged
before. `httpsRequest` gives the exchanges of a call and its redirects in the order in which they
are made, and the response or the exception. A call that does not end is `none`: `decode_chunked`
adds in 64 bits, and a chunk size that wraps around can send it back.

`trim` is declared in `shared_cli_json.h` and defined nowhere in the repository, so it is a
parameter. The TLS and socket handles are left out.
-/

set_option autoImplicit false

namespace EjsBoundary.Model

open EjsBoundary.Lib

/-! ### Reading numbers -/

/-- An optional sign: whether it is a minus, and the rest. -/
def readSign : Bytes → Bool × Bytes
  | 0x2D :: s => (true, s)
  | 0x2B :: s => (false, s)
  | s => (false, s)

/-- A prefix `0x` of either case, when a digit follows it, does not count. -/
def skipHexMark : Bytes → Bytes
  | 0x30 :: x :: c :: s =>
    if toLower x = 0x78 ∧ (hexval c).isSome then c :: s else 0x30 :: x :: c :: s
  | s => s

/-- The value of digits in base `b`, the most significant first. -/
def digitsValue (b : Nat) (digits : Bytes) : Nat :=
  digits.foldl (fun v c => v * b + ((hexval c).getD 0).toNat) 0

/-- `std::stoul(s, nullptr, 16)`, `none` when it throws. -/
def stoul16 (s : Bytes) : Option Nat :=
  let (negative, s) := readSign (s.dropWhile isSpace)
  let digits := (skipHexMark s).takeWhile fun c => (hexval c).isSome
  let value := digitsValue 16 digits
  if digits = [] ∨ 2 ^ 64 ≤ value then none
  else some (if negative then (2 ^ 64 - value) % 2 ^ 64 else value)

/-- `iss >> httpver >> r.status`: a word, then a number. A number that does not fit in an
`int` gives the bound it is beyond, and none at all gives zero. -/
def readStatus (headers : Bytes) : Int :=
  let rest := (headers.dropWhile isSpace).dropWhile fun c => !isSpace c
  let (negative, s) := readSign (rest.dropWhile isSpace)
  let value := digitsValue 10 (s.takeWhile fun c => 0x30 ≤ c && c ≤ 0x39)
  if negative then max (-(value : Int)) (-2147483648) else min (value : Int) 2147483647

/-! ### Chunked bodies -/

/-- The loop of `decode_chunked` from position `i`. `size_t` has 64 bits and `i + len` wraps.
The loop ends when it is out of fuel only if it never ends: there are no more positions than
bytes, so by then it has been at one twice. -/
def decodeChunkedFrom (trim : Bytes → Bytes) (body : Bytes) : Nat → Nat → Bytes → Option Bytes
  | 0, _, _ => none
  | n + 1, i, out =>
    if i < body.length then
      match findText (lit "\r\n") body i with
      | none => some out
      | some e =>
        match stoul16 ((trim ((body.drop i).take (e - i))).takeWhile (· ≠ 0x3B)) with
        | none => some out
        | some len =>
          let i := e + 2
          if len = 0 ∨ body.length < (i + len) % 2 ^ 64 then some out
          else
            let out := out ++ (body.drop i).take len
            let i := (i + len) % 2 ^ 64
            if i + 2 ≤ body.length ∧ (body.drop i).take 2 = lit "\r\n" then
              decodeChunkedFrom trim body n (i + 2) out
            else decodeChunkedFrom trim body n i out
    else some out

/-- `decode_chunked`. -/
def decodeChunked (trim : Bytes → Bytes) (body : Bytes) : Option Bytes :=
  decodeChunkedFrom trim body (body.length + 1) 0 []

/-! ### Requests and responses -/

def defaultUa : Bytes := lit "Mozilla/5.0 (X11; Linux x86_64)"

def defaultAcc : Bytes := lit "*/*"

/-- What the caller's headers are written as: with a line end after them if they have none. -/
def extraLines (extraHeaders : Bytes) : Bytes :=
  if extraHeaders = [] then []
  else if extraHeaders.length < 2 ∨
      extraHeaders.drop (extraHeaders.length - 2) ≠ lit "\r\n" then
    extraHeaders ++ lit "\r\n"
  else extraHeaders

/-- The headers that go with a body. -/
def bodyLines (body : Bytes) : Bytes :=
  if body = [] then []
  else lit "Content-Type: application/json\r\n" ++ lit "Content-Length: " ++
    lit (toString body.length) ++ lit "\r\n"

/-- `reqStr`: the bytes of a request. -/
def requestText (host method path extraHeaders body : Bytes) : Bytes :=
  method ++ lit " " ++ path ++ lit " HTTP/1.1\r\n" ++
    lit "Host: " ++ host ++ lit "\r\n" ++
    lit "Connection: close\r\n" ++
    lit "User-Agent: " ++ defaultUa ++ lit "\r\n" ++
    lit "Accept: " ++ defaultAcc ++ lit "\r\n" ++
    bodyLines body ++ extraLines extraHeaders ++ lit "\r\n" ++ body

/-- The response a server's bytes are read as. -/
def readHttpResponse (trim : Bytes → Bytes) (resp : Bytes) :
    Option (Except Bytes HttpResponse) :=
  match findText (lit "\r\n\r\n") resp 0 with
  | none => some (.error (lit "bad HTTP response"))
  | some pos =>
    let headers := resp.take pos
    let body := resp.drop (pos + 4)
    let status := readStatus headers
    if (findText (lit "transfer-encoding: chunked") (headers.map toLower) 0).isSome then
      (decodeChunked trim body).map fun body => .ok { status, headers, body }
    else some (.ok { status, headers, body })

/-! ### Redirects -/

/-- `(?:\r\n|^)Location:\s*([^\r\n]+)`, without regard to case. -/
def locationPattern : Regex :=
  .seq (.alt (.literal (lit "\r\n")) .bol)
    (.seq (.literalBy (fun c x => toLower x == toLower c) (lit "Location:"))
      (.seq (.star isSpace) (.group 1 (.plus fun c => c != 0x0D && c != 0x0A))))

/-- An expression for all of an https URL. -/
def httpsPattern (host path : Regex) : Regex :=
  .seq .bol (.seq (.literal (lit "https://")) (.seq host (.seq path .eol)))

/-- `[^/]+`. -/
def hostPattern : Regex := .plus (· != 0x2F)

/-- `/.*`. -/
def pathPattern : Regex := .seq (.literal (lit "/")) (.star Regex.dot)

/-- `^https://([^/]+)(/.*)?$`. -/
def redirectPattern : Regex :=
  httpsPattern (.group 1 hostPattern) (.opt (.group 2 pathPattern))

/-- The `Location` of a redirect response: `trim(m[1].str())`. -/
def locationOf (trim : Bytes → Bytes) (r : HttpResponse) : Option Bytes :=
  if 300 ≤ r.status ∧ r.status < 400 then
    (regexSearch locationPattern r.headers).map fun m => trim ((m.lookup 1).getD [])
  else none

/-- The host and the path a `Location` is followed to from `host`, `none` when it is not
followed. -/
def redirectTarget (host loc : Bytes) : Option (Bytes × Bytes) :=
  if (lit "https://").isPrefixOf loc then
    (regexMatch redirectPattern loc).map fun lm =>
      ((lm.lookup 1).getD [], (lm.lookup 2).getD (lit "/"))
  else if loc.head? = some 0x2F then some (host, loc)
  else none

/-- Why nothing was written: what `SSL_CTX_new`, `tcp_connect`, `SSL_new` and `SSL_connect`
throw. -/
inductive ConnectFailure where
  | sslCtxNew
  | getaddrinfo (text : Bytes)
  | connect
  | sslNew
  | sslConnect
  deriving DecidableEq

/-- The text of the exception. -/
def ConnectFailure.what (host : Bytes) : ConnectFailure → Bytes
  | .sslCtxNew => lit "SSL_CTX_new failed"
  | .getaddrinfo text => lit "getaddrinfo: " ++ text
  | .connect => lit "connect failed to " ++ host
  | .sslNew => lit "SSL_new failed"
  | .sslConnect => lit "SSL_connect failed"

/-- What comes of a request: no connection, a connection that breaks while the request is
written, or all that is read until the connection ends. -/
inductive Outcome where
  | failed (failure : ConnectFailure)
  | broken
  | reply (resp : Bytes)
  deriving DecidableEq

/-- One request. `via` is the `Location` it follows, `none` for the first of a call; `peer` is
the name the connection is made to, which is passed as `host.c_str()`. -/
structure Exchange where
  via : Option Bytes
  peer : Bytes
  host : Bytes
  path : Bytes
  request : Bytes
  outcome : Outcome
  deriving DecidableEq

/-- The network: what comes of a request, given what was exchanged before, the name that is
connected to and the bytes that are written. -/
abbrev Server := (history : List Exchange) → (peer request : Bytes) → Outcome

/-- The exchange that a call makes. -/
def exchange (server : Server) (history : List Exchange) (via : Option Bytes)
    (host path request : Bytes) : Exchange :=
  { via, peer := cString host, host, path, request
    outcome := server history (cString host) request }

/-- The exchanges of a call, and how it ends: `none` when it does not. -/
abbrev HttpCall := List Exchange × Option (Except Bytes HttpResponse)

/-- What a call does with the outcome of its exchange: it ends, or it follows a `Location` to
a host and a path. -/
def afterOutcome (trim : Bytes → Bytes) (host : Bytes) :
    Outcome → Option (Except Bytes HttpResponse) ⊕ (Bytes × Bytes × Bytes)
  | .failed failure => .inl (some (.error (failure.what host)))
  | .broken => .inl (some (.error (lit "SSL_write failed")))
  | .reply resp =>
    match readHttpResponse trim resp with
    | none => .inl none
    | some (.error what) => .inl (some (.error what))
    | some (.ok r) =>
      match locationOf trim r with
      | none => .inl (some (.ok r))
      | some loc =>
        match redirectTarget host loc with
        | none => .inl (some (.ok r))
        | some (host, path) => .inr (loc, host, path)

section
variable (trim : Bytes → Bytes) (server : Server) (method extraHeaders body : Bytes)

/-- `https_request` with `redirectDepth` such that `depth` more requests can be made. -/
def httpsRequestFrom : Nat → List Exchange → Option Bytes → (host path : Bytes) → HttpCall
  | 0, _, _, _, _ => ([], some (.error (lit "Too many redirects")))
  | depth + 1, history, via, host, path =>
    let sent := exchange server history via host path
      (requestText host method path extraHeaders body)
    match afterOutcome trim host sent.outcome with
    | .inl result => ([sent], result)
    | .inr (loc, host, path) =>
      let next := httpsRequestFrom depth (history ++ [sent]) (some loc) host path
      (sent :: next.1, next.2)

/-- `https_request`: nothing is sent once `redirectDepth > 8`. -/
def httpsRequest (history : List Exchange) (host path : Bytes) : HttpCall :=
  httpsRequestFrom trim server method extraHeaders body 9 history none host path

end

end EjsBoundary.Model
