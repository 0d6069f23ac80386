import EjsBoundary.Lib.ChunkedCoding
import EjsBoundary.Lib.ResponseHead

/-!
# `EjsBoundary.Lib.WebSite`: what a web server stands for

A site says what stands at each host and path: contents with a status, or a link to where they
have moved. `Site.fetch` is what a client wants of it, the contents at the end of the links, if
it is there after so many steps.

`Represents` says which responses a server may give for a resource. It is free in the version and
the reason of the status line, in the fields it adds and the way it writes them, and in how the
body is framed: as it is, up to the end of the connection, or in chunks of any sizes.
`HttpRequest.Asks` says which requests are for a host and a path.
-/

set_option autoImplicit false

namespace EjsBoundary.Lib

/-! ### Sites -/

/-- The name of a host as it stands in a URL. -/
structure HostName where
  /-- The name. -/
  text : Bytes
  text_ne_nil : text ≠ []
  text_clean : ∀ x ∈ text, x ≠ 0 ∧ x ≠ 0x2F ∧ isSpace x = false

/-- A path, with the query behind it. -/
@[ext]
structure UrlPath where
  /-- The path. -/
  text : Bytes
  text_head : text.head? = some 0x2F
  text_clean : ∀ x ∈ text, isSpace x = false

/-- The path of a URL that has none. -/
def UrlPath.root : UrlPath where
  text := [0x2F]
  text_head := rfl
  text_clean := by decide

/-- An https URL, or a path on the same host. Two slashes would name another host. -/
inductive Link where
  | absolute (host : HostName) (path : Option UrlPath)
  | rooted (path : UrlPath) (oneSlash : ¬ [0x2F, 0x2F] <+: path.text)

namespace Link

/-- The path, when the link has one. -/
def path : Link → Option UrlPath
  | absolute _ path => path
  | rooted path _ => some path

/-- How the link is written. -/
def text : Link → Bytes
  | absolute host path => lit "https://" ++ (host.text ++ (path.map UrlPath.text).getD [])
  | rooted path _ => path.text

/-- The host a link leads to from a page on `base`. -/
def host (base : HostName) : Link → HostName
  | absolute host _ => host
  | rooted _ _ => base

/-- The path a link leads to. -/
def targetPath (link : Link) : UrlPath := link.path.getD .root

end Link

/-- What stands at a host and a path. -/
inductive Resource where
  | content (status : Nat) (payload : Bytes)
  | moved (status : Nat) (link : Link)

/-- What stands where. -/
abbrev Site := HostName → UrlPath → Resource

/-- The status and the payload at the end of the links, within so many requests. -/
def Site.fetch (site : Site) : Nat → HostName → UrlPath → Option (Nat × Bytes)
  | 0, _, _ => none
  | n + 1, host, path =>
    match site host path with
    | .content status payload => some (status, payload)
    | .moved _ link => Site.fetch site n (link.host host) link.targetPath

/-! ### Requests -/

/-- A request without a body for a host and a path: one `Host` field names the host. -/
structure HttpRequest.Asks (r : HttpRequest) (host : HostName) (path : UrlPath) : Prop where
  method : r.method = lit "GET"
  target : r.target = path.text
  host : (r.headers.filter fun field => lowered field.1 = lit "host").map (fun f => strip f.2) =
    [host.text]
  body : r.body = []

/-! ### Responses -/

/-- A decimal digit. -/
def decimalDigit (d : Fin 10) : UInt8 := UInt8.ofNat (0x30 + d.val)

/-- The status line names the status, with three digits. -/
def ResponseHead.HasStatus (h : ResponseHead) (status : Nat) : Prop :=
  ∃ (version reason : Bytes) (a b c : Fin 10), (∀ x ∈ version, isSpace x = false) ∧
    h.statusLine = lit "HTTP/" ++ (version ++ 0x20 :: decimalDigit a :: decimalDigit b ::
      decimalDigit c :: 0x20 :: reason) ∧
    status = 100 * a.val + 10 * b.val + c.val

/-- The first `Location` field is the link. -/
def ResponseHead.Locates (h : ResponseHead) (link : Link) : Prop :=
  ∃ front f back, h.fields = front ++ f :: back ∧
    (∀ g ∈ front, lowered g.name ≠ lit "location") ∧ lowered f.name = lit "location" ∧
    strip f.value = link.text

/-- The body carries the payload as the fields say. -/
inductive ResponseHead.Frames (h : ResponseHead) (payload : Bytes) : Bytes → Prop
  | plain (hnot : ¬ h.Chunked) : Frames h payload payload
  | chunked (hchunked : h.Chunked) (m : ChunkedCoding.Coding) (hpayload : m.payload = payload)
      (hlen : m.bytes.length < 2 ^ 63) : Frames h payload m.bytes

/-- A response that stands for a resource. -/
inductive Represents (h : ResponseHead) (body : Bytes) : Resource → Prop
  | content {status : Nat} {payload : Bytes} (hstatus : h.HasStatus status)
      (hfinal : status < 300 ∨ 400 ≤ status) (hframes : h.Frames payload body) :
      Represents h body (.content status payload)
  | moved {status : Nat} {link : Link} {payload : Bytes} (hstatus : h.HasStatus status)
      (hredirect : 300 ≤ status ∧ status < 400) (hlocates : h.Locates link)
      (hframes : h.Frames payload body) : Represents h body (.moved status link)

/-! ### Writing links -/

namespace Link

/-- The text of a link is not empty. -/
theorem text_ne_nil (link : Link) : link.text ≠ [] := by
  cases link with
  | absolute host path => exact List.cons_ne_nil _ _
  | rooted path _ =>
    intro h
    have hhead := path.text_head
    rw [show path.text = [] from h] at hhead
    cases hhead

end Link

end EjsBoundary.Lib
