import EjsBoundary.Lib.Ownership
import EjsBoundary.Model.Http

/-!
# `EjsBoundary.Model.HttpHandles`: the handles of an HTTPS request

`tcp_connect` and `https_request` again, now with every handle they acquire, use and release: the
`SSL_CTX`, the `SSL`, the sockets of the address loop and the `addrinfo` list. What each call
returns is an input, `CallOutcomes`, so a statement about every `Network` is one about every
choice of what fails. `EjsBoundary.Model.Http` is this model with the handles left out: the
`Outcome` it gives to a request is `outcomeOf` of these calls.

A handle is named by the request of the chain that acquired it, its kind, and for a socket the
address it was made for, so a number that the system hands out again is a different handle.
-/

set_option autoImplicit false

namespace EjsBoundary.Model

open EjsBoundary.Lib

/-! ### Handles and outcomes -/

inductive HandleKind where
  | ctx
  | ssl
  | socket (address : Nat)
  | addrinfo
  deriving DecidableEq

structure Handle where
  /-- `redirectDepth` of the request. -/
  request : Nat
  kind : HandleKind
  deriving DecidableEq

/-- What `socket` and `connect` return for one address. -/
structure AddressOutcome where
  socket : Bool
  connect : Bool

/-- What the calls of one request return. -/
structure CallOutcomes where
  /-- Whether `SSL_CTX_new` returns a context. -/
  ctxNew : Bool
  /-- The addresses `getaddrinfo` lists, or the text of its error. -/
  getaddrinfo : Except Bytes (List AddressOutcome)
  /-- Whether `SSL_new` returns a connection. -/
  sslNew : Bool
  /-- Whether `SSL_connect` returns 1. -/
  sslConnect : Bool
  /-- What each call of `SSL_write` returns. -/
  sslWrite : Nat → Int
  /-- What the calls of `SSL_read` give; after them, or with nothing, one returns 0 or less. -/
  sslRead : List Bytes
  /-- The exception of the search for a `Location`, when it throws. -/
  searchThrows : Option Bytes
  /-- The exception of the match of an https `Location`, when it throws. -/
  matchThrows : Option Bytes

/-- The outcomes of the calls of a request, given what was exchanged before, the name that is
connected to and the bytes that are to be written. -/
abbrev Network := (history : List Exchange) → (peer request : Bytes) → CallOutcomes

/-- The variables of `https_request` that hold handles; `nullptr` and -1 are `none`. -/
structure HttpLocals where
  ctx : Option Handle
  ssl : Option Handle
  fd : Option Handle

/-! ### `tcp_connect` -/

section
variable {σ : Type}

/-- The loop over the addresses: the socket that is connected, if one is. -/
def tryAddresses (request : Nat) : Nat → List AddressOutcome →
    Prog Handle σ Bytes (Option Handle)
  | _, [] => pure none
  | i, p :: rest => do
    -- `socket(p->ai_family, …)`
    Prog.emit (.use ⟨request, .addrinfo⟩)
    if p.socket then
      Prog.emit (.acquire ⟨request, .socket i⟩)
      -- `connect(fd, p->ai_addr, …)`
      Prog.emit (.use ⟨request, .addrinfo⟩)
      Prog.emit (.use ⟨request, .socket i⟩)
      if p.connect then
        return some ⟨request, .socket i⟩
      else
        Prog.emit (.release ⟨request, .socket i⟩)
        tryAddresses request (i + 1) rest
    else
      tryAddresses request (i + 1) rest

/-- `tcp_connect`. -/
def tcpConnect (request : Nat) (host : Bytes) :
    Except Bytes (List AddressOutcome) → Prog Handle σ Bytes Handle
  | .error text => Prog.throw ((ConnectFailure.getaddrinfo text).what host)
  | .ok addresses => do
    Prog.emit (.acquire ⟨request, .addrinfo⟩)
    let fd ← tryAddresses request 0 addresses
    Prog.emit (.release ⟨request, .addrinfo⟩)
    match fd with
    | none => Prog.throw (ConnectFailure.connect.what host)
    | some fd => return fd

/-! ### `https_request` -/

/-- A call that works on the connection, and through it on its socket. -/
def useConnection (ssl fd : Handle) : Prog Handle σ Bytes Unit := do
  Prog.emit (.use ssl)
  Prog.emit (.use fd)

/-- The loop of `SSL_write` with `left` bytes to go, at its call `i`. Every call that does not
fail writes something, so as many turns as there are bytes are enough. -/
def writeLoop (ssl fd : Handle) (sslWrite : Nat → Int) : Nat → Nat → Nat →
    Prog Handle σ Bytes Unit
  | 0, _, _ => pure ()
  | n + 1, i, left =>
    if left = 0 then pure ()
    else do
      useConnection ssl fd
      if sslWrite i ≤ 0 then Prog.throw (lit "SSL_write failed")
      else writeLoop ssl fd sslWrite n (i + 1) (left - (sslWrite i).toNat)

/-- The loop of `SSL_read`. -/
def readLoop (ssl fd : Handle) : List Bytes → Bytes → Prog Handle σ Bytes Bytes
  | [], resp => do
    useConnection ssl fd
    return resp
  | buf :: rest, resp => do
    useConnection ssl fd
    if buf = [] then return resp
    else readLoop ssl fd rest (resp ++ buf)

end

/-- TLS over a connected socket, the request and the response, and the release of the handles. -/
def transferOver (calls : CallOutcomes) (request : Nat) (host reqStr : Bytes) (fd : Handle) :
    Prog Handle HttpLocals Bytes Bytes := do
  let ctx : Handle := ⟨request, .ctx⟩
  let ssl : Handle := ⟨request, .ssl⟩
  Prog.assign fun s => { s with fd := some fd }
  -- `SSL_new(ctx)`
  Prog.emit (.use ctx)
  if !calls.sslNew then Prog.throw (ConnectFailure.sslNew.what host)
  else
    Prog.emit (.acquire ssl)
    Prog.assign fun s => { s with ssl := some ssl }
    -- `SSL_set_fd(ssl, fd)`
    useConnection ssl fd
    -- `SSL_set_tlsext_host_name(ssl, …)`
    Prog.emit (.use ssl)
    -- `SSL_connect(ssl)`
    useConnection ssl fd
    if !calls.sslConnect then Prog.throw (ConnectFailure.sslConnect.what host)
    else
      writeLoop ssl fd calls.sslWrite reqStr.length 0 reqStr.length
      let resp ← readLoop ssl fd calls.sslRead []
      -- `SSL_shutdown(ssl)`
      useConnection ssl fd
      Prog.emit (.release ssl)
      Prog.emit (.release fd)
      Prog.emit (.release ctx)
      Prog.assign fun _ => { ctx := none, ssl := none, fd := none }
      return resp

/-- The connection of a request up to the last byte of the response. -/
def transfer (calls : CallOutcomes) (request : Nat) (host reqStr : Bytes) :
    Prog Handle HttpLocals Bytes Bytes := do
  let fd ← tcpConnect request host calls.getaddrinfo
  transferOver calls request host reqStr fd

/-- `if (p) …` for a variable that may hold nothing. -/
def whenSome (o : Option Handle) (f : Handle → Prog Handle HttpLocals Bytes Unit) :
    Prog Handle HttpLocals Bytes Unit :=
  match o with
  | none => pure ()
  | some h => f h

/-- The handler of `https_request`, up to its `throw`. -/
def releaseLocals : Prog Handle HttpLocals Bytes Unit := do
  let s ← Prog.locals
  whenSome s.ssl fun ssl => do
    -- `SSL_shutdown(ssl)`
    Prog.emit (.use ssl)
    whenSome s.fd fun fd => Prog.emit (.use fd)
    Prog.emit (.release ssl)
  whenSome s.fd fun fd => Prog.emit (.release fd)
  whenSome s.ctx fun ctx => Prog.emit (.release ctx)

/-- `https_request` around what it does between `SSL_CTX_new` and the `catch`. -/
def withContext (calls : CallOutcomes) (request : Nat) (host : Bytes)
    (body : Prog Handle HttpLocals Bytes HttpResponse) : Call Handle Bytes HttpResponse :=
  Prog.run (do
    if !calls.ctxNew then Prog.throw (ConnectFailure.sslCtxNew.what host)
    else
      Prog.emit (.acquire ⟨request, .ctx⟩)
      Prog.assign fun s => { s with ctx := some ⟨request, .ctx⟩ }
      Prog.catching body fun e => do
        releaseLocals
        Prog.throw e)
    { ctx := none, ssl := none, fd := none }

/-- What a response says to do: end with it, or go on to a `Location`, a host and a path. -/
def followResponse (trim : Bytes → Bytes) (calls : CallOutcomes) (host : Bytes) (r : HttpResponse) :
    Except Bytes (Option (Bytes × Bytes × Bytes)) :=
  if 300 ≤ r.status ∧ r.status < 400 then
    match calls.searchThrows with
    | some what => .error what
    | none =>
      match locationOf trim r with
      | none => .ok none
      | some loc =>
        match (lit "https://").isPrefixOf loc, calls.matchThrows with
        | true, some what => .error what
        | _, _ => .ok ((redirectTarget host loc).map fun target => (loc, target.1, target.2))
  else .ok none

/-- Whether some call of the `SSL_write` loop fails. -/
def writeFails (sslWrite : Nat → Int) : Nat → Nat → Nat → Bool
  | 0, _, _ => false
  | n + 1, i, left =>
    if left = 0 then false
    else if sslWrite i ≤ 0 then true
    else writeFails sslWrite n (i + 1) (left - (sslWrite i).toNat)

/-- What the calls of a request amount to for one who does not see the handles. -/
def outcomeOf (calls : CallOutcomes) (reqStr : Bytes) : Outcome :=
  if !calls.ctxNew then .failed .sslCtxNew
  else
    match calls.getaddrinfo with
    | .error text => .failed (.getaddrinfo text)
    | .ok addresses =>
      if !addresses.any fun p => p.socket && p.connect then .failed .connect
      else if !calls.sslNew then .failed .sslNew
      else if !calls.sslConnect then .failed .sslConnect
      else if writeFails calls.sslWrite reqStr.length 0 reqStr.length then .broken
      else .reply (calls.sslRead.takeWhile (· ≠ [])).flatten

/-- The servers of a network, for one who does not see the handles. -/
def serverOf (network : Network) : Server :=
  fun history peer request => outcomeOf (network history peer request) request

section
variable (trim : Bytes → Bytes) (network : Network) (method extraHeaders body : Bytes)

/-- `https_request` with `redirectDepth` such that as many more requests can be made as the first
argument says. -/
def httpsRequestCalls : Nat → (redirectDepth : Nat) → List Exchange → Option Bytes →
    (host path : Bytes) → Call Handle Bytes HttpResponse
  | 0, _, _, _, _, _ => ([], some (.error (lit "Too many redirects")))
  | n + 1, redirectDepth, history, via, host, path =>
    let reqStr := requestText host method path extraHeaders body
    let calls := network history (cString host) reqStr
    let sent := exchange (serverOf network) history via host path reqStr
    withContext calls redirectDepth host do
      let resp ← transfer calls redirectDepth host reqStr
      match readHttpResponse trim resp with
      | none => Prog.never
      | some (.error what) => Prog.throw what
      | some (.ok r) =>
        match followResponse trim calls host r with
        | .error what => Prog.throw what
        | .ok none => return r
        | .ok (some (loc, host, path)) =>
          Prog.call (httpsRequestCalls n (redirectDepth + 1) (history ++ [sent]) (some loc) host path)

end

end EjsBoundary.Model
