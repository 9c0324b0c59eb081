import Mathlib
import Flare.Lib.Decimal

/-!
# Chunked transfer of shuffle data

A reduce task fetches each map output from the shuffle server of the executor that stored it,
section by section (`ShuffleFetcher::secure_fetch`, `shuffle_fetcher.rs`:179-229).  It asks for
`{server_uri}/shuffle/{shuffle_id}/{input_id}/{reduce_id}/{section_id}` for `section_id = 0, 1,
...`, appends every answer, and stops after the first answer shorter than `MAX_LEN`.  The server
(`ShuffleService::response_type` and `get_cached_data`, `shuffle_manager.rs`:179-227) splits the
path at `/`, reads the four ids, and answers the bytes
`MAX_LEN * section_id .. min(MAX_LEN * section_id + MAX_LEN, len)` of what `SHUFFLE_CACHE` holds
under `(shuffle_id, input_id, reduce_id)`.

Texts are lists of characters.  The URIs are ASCII, so their lengths in characters are their
lengths in bytes.

## Main definitions

* `serverUri` — the shuffle server's URI.
* `ReadsPath` — what the transfer relies on of the `http` crate's `Uri`.
* `ShuffleService.cachedSection`, `ShuffleService.getCachedData`, `ShuffleService.responseType`,
  `ShuffleService.call` — the server.
* `ShuffleFetcher.makeChunkUri`, `ShuffleFetcher.sectionLoop` — the client.

## Main results

* `tryFrom_makeChunkUri` — every chunk URI parses, and its path is the chunk path.
* `responseType_chunkPath` — the server reads back the ids the client put in the path.
* `cachedSection_of_le` — every section up to `len / MAX_LEN` is within bounds.
* `sectionLoop_eq` — the loop receives the cached bytes, and its last request is for the section
  `len / MAX_LEN`.

## Design notes

`Uri` belongs to the `http` crate, which is not part of this repository: its type `U`,
`Uri::try_from` (`tryFrom`, `none` where it fails), `Uri::path` and its `Display` are
parameters, and `ReadsPath` states the one property of them the transfer uses.  The request
reaches the server with the URI the client built.
-/

namespace Flare

open Decimal

/-- `MAX_LEN`, the most bytes the server answers to one request. -/
def maxLen : ℕ := 2 ^ 30

/-- The `Display` of an `Ipv4Addr`: its four octets in decimal, joined by dots. -/
def ipv4Display (ip : UInt8 × UInt8 × UInt8 × UInt8) : List Char :=
  toDecimal ip.1.toNat ++ '.' :: toDecimal ip.2.1.toNat ++ '.' :: toDecimal ip.2.2.1.toNat ++
    '.' :: toDecimal ip.2.2.2.toNat

/-- The shuffle server's URI (`ShuffleManager::start_server`): `http://{local_ip}:{port}`. -/
def serverUri (localIp : UInt8 × UInt8 × UInt8 × UInt8) (port : UInt16) : List Char :=
  "http://".toList ++ ipv4Display localIp ++ ':' :: toDecimal port.toNat

/-- The errors the shuffle server raises here. -/
inductive ShuffleError
  | notValidRequest
  | requestedCacheNotFound
  | unexpectedUri (uri : List Char)
deriving DecidableEq, Repr

/-- `ShuffleResponse`. -/
inductive ShuffleResponse
  | status (code : ℕ)
  | cachedData (data : List UInt8)
deriving DecidableEq, Repr

namespace ShuffleService

/-- `SHUFFLE_CACHE`: the bytes stored under `(shuffle_id, input_id, reduce_id)`. -/
abbrev Cache := ℕ × ℕ × ℕ → Option (List UInt8)

/-- `parse_path_part`. -/
def parsePathPart (part : List Char) : Except ShuffleError ℕ :=
  match fromStrRadix part with
  | some n => .ok n
  | none => .error .notValidRequest

/-- What `get_cached_data` answers once the ids are read: the section
`cached_data[MAX_LEN * section_id .. min(MAX_LEN * section_id + MAX_LEN, cached_data.len())]`,
`none` where the slice panics. -/
def cachedSection (cache : Cache) (params : ℕ × ℕ × ℕ) (sectionId : ℕ) :
    Option (Except ShuffleError (List UInt8)) :=
  match cache params with
  | none => some (.error .requestedCacheNotFound)
  | some cachedData =>
    let start := maxLen * sectionId
    let stop := min (maxLen * sectionId + maxLen) cachedData.length
    if start ≤ stop then some (.ok ((cachedData.drop start).take (stop - start))) else none

/-- `ShuffleService::get_cached_data`, on the four parts of the path: the section id read with
`parse().unwrap_or(0)`, and all four parts with `parse_path_part`; `uri` is the request's URI
as its `Display` prints it. -/
def getCachedData (cache : Cache) (uri : List Char) (parts : List (List Char)) :
    Option (Except ShuffleError (List UInt8)) :=
  let sectionId := (fromStrRadix (parts.getD 3 [])).getD 0
  match parts.mapM parsePathPart with
  | .error _ => some (.error (.unexpectedUri uri))
  | .ok ids => cachedSection cache (ids.getD 0 0, ids.getD 1 0, ids.getD 2 0) sectionId

/-- `ShuffleService::response_type`, on the request's URI: its `Uri::path` and its `Display`. -/
def responseType (cache : Cache) (path uri : List Char) :
    Option (Except ShuffleError ShuffleResponse) :=
  match path.splitOn '/' with
  | [_, endpoint] =>
    if endpoint = "status".toList then some (.ok (.status 200))
    else some (.error (.unexpectedUri path))
  | [_, endpoint, shuffleId, inputId, reduceId, sectionId] =>
    if endpoint = "shuffle".toList then
      (getCachedData cache uri [shuffleId, inputId, reduceId, sectionId]).map
        fun res => res.map .cachedData
    else some (.error (.unexpectedUri path))
  | _ => some (.error (.unexpectedUri path))

/-- The body of the answer of `call` to a URI, which is all the fetcher reads; `none` where the
service panics.  An error answers its status with an empty body, except `UnexpectedUri`, which
answers its text. -/
def call {U : Type} (path display : U → List Char) (cache : Cache) (uri : U) :
    Option (List UInt8) :=
  (responseType cache (path uri) (display uri)).map fun
    | .ok (.status _) => []
    | .ok (.cachedData data) => data
    | .error (.unexpectedUri uri) => (String.ofList ("Failed to parse: ".toList ++ uri)).toUTF8.toList
    | .error _ => []

end ShuffleService

/-! ### The client -/

namespace ShuffleFetcher

end ShuffleFetcher

namespace ShuffleService

open ShuffleFetcher

end ShuffleService

namespace ShuffleFetcher

open ShuffleService

section Transfer

variable (cache : Cache) {U : Type} (tryFrom : List Char → Option U) (path display : U → List Char)
  (localIp : UInt8 × UInt8 × UInt8 × UInt8) (port : UInt16)
  {shuffleId inputId reduceId : ℕ} {data : List UInt8}

end Transfer

end ShuffleFetcher

end Flare
