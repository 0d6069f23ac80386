import EjsBoundary.Model.UrlQuery

/-!
# `EjsBoundary.Model.Types`: the records of `yoube_model.h`

The records the solver and the HTTP code pass around. `FormatInfo` keeps the three fields
`solve_format_url` reads; the display fields of a format, and the browse and TV records, are
used by no function of this repository.

`std::shared_ptr<SolverSharedCache>` is a reference: two `SolverAssets` can point to one
cache. The model keeps that identity (`CacheId`), and the contents live in the state of the
threads (`EjsBoundary.Model.SolverThreads`).
-/

set_option autoImplicit false

namespace EjsBoundary.Model

open EjsBoundary.Lib

/-- `SolverSharedCache`, its mutex left out: the model takes locked sections as single
steps. `std::unordered_map` is a `Params` too, since nothing iterates over one. -/
structure SolverSharedCache where
  nValues : Params := ∅
  sigValues : Params := ∅
  nErrors : Params := ∅
  sigErrors : Params := ∅

/-- The identity of a shared cache. -/
abbrev CacheId := Nat

/-- `SolverAssets`: the solver scripts, the player, and the cache that goes with them. -/
structure SolverAssets where
  meriyahCode : Bytes
  astringCode : Bytes
  libCode : Bytes
  coreCode : Bytes
  playerCode : Bytes
  cache : Option CacheId
  deriving DecidableEq

/-- `SolverRequest`. -/
structure SolverRequest where
  type : Bytes
  challenge : Bytes
  deriving DecidableEq

/-- `SolverResponse`. -/
structure SolverResponse where
  type : Bytes := []
  ok : Bool := false
  data : Bytes := []
  error : Bytes := []
  deriving DecidableEq

/-- `SolvedUrlResult`. -/
structure SolvedUrlResult where
  decodedUrl : Bytes
  solverError : Bytes
  deriving DecidableEq

/-- `FormatInfo`, as far as `solve_format_url` reads it. -/
structure FormatInfo where
  url : Bytes
  sp : Bytes := lit "signature"
  requests : List SolverRequest
  deriving DecidableEq

/-- `HttpResponse`. -/
structure HttpResponse where
  status : Int := 0
  headers : Bytes
  body : Bytes
  deriving DecidableEq

end EjsBoundary.Model
