import BlueskyTrends.Ingest.Service
import BlueskyTrends.Lib.Query

/-!
# The connection URL

`build_url` of `ingest/jetstream_client.py`, what a server reads off the URL, and the service whose
connections are opened by their URLs.

The server is a parameter: which events it serves to those who ask for some collections, and its
reading of the text of a cursor.
-/

namespace BlueskyTrends

/-- `s.encode()`. -/
def utf8 (s : String) : Query.Bytes := s.toByteArray.data.toList

/-- `urlencode(params)`. -/
def urlencode (params : List (String × String)) : String :=
  String.ofList (Query.urlencode (params.map fun p => (utf8 p.1, utf8 p.2)))

/-- The settings `build_url` reads. -/
structure UrlSettings where
  jetstreamUrl : String
  wantedCollections : List String

/-- The `params` local of `build_url`. -/
def UrlSettings.params (us : UrlSettings) (cursor : Option ℤ) : List (String × String) :=
  us.wantedCollections.map (fun c => ("wantedCollections", c)) ++
    match cursor with
    | some n => [("cursor", toString n)]
    | none => []

/-- `build_url`. -/
def buildUrl (us : UrlSettings) (cursor : Option ℤ) : String :=
  us.jetstreamUrl ++ "?" ++ urlencode (us.params cursor)

/-- The server of the stream. -/
structure Jetstream where
  /-- Whether it serves an event to a connection that asks for these collections. -/
  serves : List Query.Bytes → Val → Bool
  /-- Its reading of the text of a cursor. -/
  parseCursor : Query.Bytes → Option ℤ

/-- The values of a parameter of a query. -/
def valuesOf (name : String) (params : List (Query.Bytes × Query.Bytes)) : List Query.Bytes :=
  (params.filter fun p => p.1 = utf8 name).map Prod.snd

/-- What a connection delivers, `none` where the server cannot read its URL. -/
def Jetstream.answer (J : Jetstream) (log : SourceLog) (url : String) (boundary : Bool) (position : ℕ) :
    Option (List Val) := do
  let params ← Query.parse (Query.query url.toList)
  let cursor ← match valuesOf "cursor" params with
    | [] => some none
    | text :: _ => (J.parseCursor text).map some
  return (log.connect cursor boundary position).filter (J.serves (valuesOf "wantedCollections" params))

/-- A step of the service, its connections opened by their URLs. -/
def Service.wireStep (H : Host) (st : IngestSettings) (us : UrlSettings) (J : Jetstream) (log : SourceLog)
    (s : Service) : Service.Act → Service
  | .connect boundary position => match s.life with
    | some l =>
      if l.proc.idle ∧ l.conn = none then
        match J.answer log (buildUrl us l.latest) boundary position with
        | some events => { s with life := some { l with conn := some events } }
        -- refused: the client tries again
        | none => s
      else s
    | none => s
  | a => s.step H st log a

/-- The part of the source that the server serves. -/
def SourceLog.served (log : SourceLog) (p : Val → Bool) : SourceLog where
  events := log.events.filter p
  timed := fun e he => log.timed e (List.mem_filter.1 he).1
  sorted := log.sorted.filter _

/-- The live position among the events served. -/
def Service.Act.served (log : SourceLog) (p : Val → Bool) : Service.Act → Service.Act
  | .connect boundary position => .connect boundary ((log.events.take position).filter p).length
  | a => a

end BlueskyTrends
