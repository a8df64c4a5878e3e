import Dss.Http.Common

/-!
# Messages

Requests and responses differ in their first line only: `request_line` or
`status_line`. A `Message L` has a first line `L`, headers and a body, and
`Message.parse` reads it from a stream: the first line, the header block, and
the rest of the stream as the body. `Request` and `Response` are its two
instances, with the serializers of their own.
-/

namespace Dss.Http

open Dss.Lib Dss.Utils

/-- The first line of a message: how it is read once it is extracted from the
    stream and chomped. -/
class StartLine (L : Type) where
  ofLine : Bytes → Except HttpError L

/-- The text both `request_line::parse` and `status_line::parse` throw on an
    empty stream. -/
def emptyError : HttpError := ⟨"response parsing error: empty response"⟩

/-- The text both throw on a first line they cannot read. -/
def startLineError : HttpError := ⟨"response parsing error: invalid status line"⟩

/-- `request_line::parse` and `status_line::parse`: the first line, and what is
    left of the stream. -/
def StartLine.parse {L : Type} [StartLine L] (s : Bytes) : Except HttpError (L × Bytes) :=
  match getline s with
  | none => .error emptyError
  | some (line, rest) => (StartLine.ofLine (Headers.chompCr line)).map fun l => (l, rest)

structure Message (L : Type) where
  line : L
  headers : Headers
  body : Bytes
  deriving DecidableEq

/-- `request::parse` and `response::parse`. -/
def Message.parse {L : Type} [StartLine L] (s : Bytes) : Except HttpError (Message L) :=
  match StartLine.parse s with
  | .error e => .error e
  | .ok (line, rest) =>
    let (headers, body) := Headers.parse rest
    .ok { line, headers, body }

/-! ## Requests -/

structure RequestLine where
  methodType : Method
  path : Bytes
  version : Bytes
  deriving DecidableEq

/-- `request_line >> method_str >> line.path >> line.version`. -/
instance : StartLine RequestLine where
  ofLine line :=
    match extractWord line with
    | none => .error startLineError
    | some (methodStr, line) =>
      match extractWord line with
      | none => .error startLineError
      | some (path, line) =>
        match extractWord line with
        | none => .error startLineError
        | some (version, _) => .ok { methodType := stringToMethod methodStr, path, version }

abbrev Request := Message RequestLine

def Request.parse : Bytes → Except HttpError Request := Message.parse

/-! ## Responses -/

structure StatusLine where
  statusCode : StatusCode
  version : Bytes
  deriving DecidableEq

/-- `_status_line >> line.version >> code`, with a `std::uint16_t code`. -/
instance : StartLine StatusLine where
  ofLine line :=
    match extractWord line with
    | none => .error startLineError
    | some (version, line) =>
      match extractUnsigned (2 ^ 16) line with
      | none => .error startLineError
      | some (code, _) => .ok { statusCode := ⟨code.toUInt16⟩, version }

abbrev Response := Message StatusLine

def Response.parse : Bytes → Except HttpError Response := Message.parse

/-! ## Serializing -/

def crlf : Bytes := [cr, lf]

/-- `key << ": " << value << "\r\n"`. -/
def fieldLine (key value : Bytes) : Bytes := key ++ ascii ": " ++ value ++ crlf

/-- The field lines of the headers, in the order the map is iterated. -/
def fieldLines (entries : List (Σ _ : Bytes, Bytes)) : Bytes :=
  entries.flatMap fun e => fieldLine e.1 e.2

/-- `request::serialize`. It compares the keys in lower case to see whether the
    headers set the connection and the length of the body. -/
def Request.serialize (o : IterationOrder Bytes Bytes) (q : Request) : Bytes :=
  let entries := o.entries q.headers
  let hasConnection := entries.any fun e => toLower e.1 = ascii "connection"
  let hasContentLength := entries.any fun e => toLower e.1 = ascii "content-length"
  methodToString q.line.methodType ++ ascii " " ++ q.line.path ++ ascii " " ++ q.line.version
    ++ crlf ++ fieldLines entries
    ++ (if !hasConnection then fieldLine (ascii "Connection") (ascii "close") else [])
    ++ (if !hasContentLength && q.body != [] then
          fieldLine (ascii "Content-Length") (decimal q.body.length) else [])
    ++ crlf ++ q.body

/-- `response::serialize`. It compares the keys as they are spelled. -/
def Response.serialize (o : IterationOrder Bytes Bytes) (r : Response) : Bytes :=
  let entries := o.entries r.headers
  let hasContentLength := entries.any fun e => e.1 = ascii "Content-Length"
  let hasConnection := entries.any fun e => e.1 = ascii "Connection"
  r.line.version ++ ascii " " ++ decimal r.line.statusCode.toUnderlying.toNat ++ ascii " "
    ++ statusTextFor r.line.statusCode ++ crlf ++ fieldLines entries
    ++ (if !hasContentLength then
          fieldLine (ascii "Content-Length") (decimal r.body.length) else [])
    ++ (if !hasConnection then fieldLine (ascii "Connection") (ascii "close") else [])
    ++ crlf ++ r.body

def httpVersion : Bytes := ascii "HTTP/1.1"

/-- A `response` as its default constructor leaves it. -/
def Response.new : Response where
  line := { statusCode := .ok, version := [] }
  headers := ∅
  body := []

/-- `response::simple`. -/
def Response.simple (code : StatusCode) : Response where
  line := { statusCode := code, version := httpVersion }
  headers := ∅
  body := []

/-- `response::text`. -/
def Response.text (code : StatusCode) (text : Bytes) : Response where
  line := { statusCode := code, version := httpVersion }
  headers := (Headers.assignMove ∅ (ascii "Content-Type") (ascii "text/plain")).assignMove
    (ascii "Content-Length") (decimal text.length)
  body := text

/-- `response::json`. -/
def Response.json (code : StatusCode) (jsonBody : Bytes) : Response where
  line := { statusCode := code, version := httpVersion }
  headers := (Headers.assignMove ∅ (ascii "Content-Type") (ascii "application/json")).assignMove
    (ascii "Content-Length") (decimal jsonBody.length)
  body := jsonBody

end Dss.Http
