import Mathlib.Data.Finmap
import Resid.Runtime.Text
import Resid.Lib.Scan

/-!
# The head of a request

Finding a terminator, reading a head into a request and deciding how its body is
delimited.  Everything here is a function of the bytes before the terminator.
-/

namespace Http

open Runtime

/-- The headers of a request, by lower-case name. -/
abbrev Headers := Finmap fun _ : Str => Str

/-- A parsed request; `ok` is false when it was rejected, with `status` the code. -/
structure HttpRequest where
  method : Str
  target : Str
  path : Str
  query : Str
  version : Str
  headers : Headers
  body : List Int
  keepAlive : Bool
  ok : Bool
  status : Int

structure HttpLimits where
  headMax : Int
  bodyMax : Int
  requestsMax : Int
  requestMs : Int
  replyMs : Int
  openMax : Int

/-- 64 KiB of head, 8 MiB of body, 1000 requests a connection. -/
def httpLimits : HttpLimits := ⟨65536, 8388608, 1000, 30000, 60000, 1024⟩

/-! ## Bytes and text -/

/-- Bytes [i, e) as text, one codepoint a byte. -/
def hsAscii (b : List Int) (i e : Nat) : Str :=
  finishText (((b.take e).drop i).map codeChar)

/-- First index at or after `start` where `pat` occurs in `b`. -/
def hsFind (b pat : List Int) (start : Nat) : Option Nat := Scan.find b pat start

/-- No control in the `k` bytes before `e` other than HT, LF and CR, no DEL, and LF and CR
only as a CRLF pair. -/
def hsCtlFreeAt (b : List Int) (e : Nat) : Nat → Bool
  | 0 => true
  | k + 1 =>
    let i := e - (k + 1)
    let c := b.getD i 0
    if (c < 32 ∧ c ≠ 9 ∧ c ≠ 10 ∧ c ≠ 13) ∨ c = 127 then false
    else if c = 10 ∧ (i = 0 ∨ b.getD (i - 1) 0 ≠ 13) then false
    else if c = 13 ∧ (i + 1 ≥ e ∨ b.getD (i + 1) 0 ≠ 10) then false
    else hsCtlFreeAt b e k

def hsCtlFree (b : List Int) (i e : Nat) : Bool := hsCtlFreeAt b e (e - i)

/-! ## Parsing -/

/-- A request rejected before or while reading its body. -/
def hsReject (status : Int) : HttpRequest :=
  ⟨[], [], [], [], [], ∅, [], false, false, status⟩

def isSeparator (c : Int) : Bool :=
  decide (c ≤ 32) || decide (c ≥ 127) || [40, 41, 44, 47, 58, 59, 60, 61, 62, 63, 64, 91, 92, 93,
    123, 125, 34].contains c

/-- The codepoints left are a token's, `i` of them passed. -/
def hsIsToken : Str → Nat → Bool
  | [], i => decide (i > 0)
  | c :: s, i => if isSeparator c.toNat then false else hsIsToken s (i + 1)

/-- A field's value, joined to what the map has for it. -/
def mergeField (acc : Headers) (key value : Str) : Headers :=
  match acc.lookup key with
  | some old => acc.insert key (old ++ ", ".toList ++ value)
  | none => acc.insert key value

/-- The name and value around the colon of a header line. -/
def fieldKey (line : Str) : Str :=
  strToLower (strSlice line 0 (strIndexOf line ":".toList 0).toNat)

def fieldValue (line : Str) : Str :=
  strTrim (strSlice line ((strIndexOf line ":".toList 0).toNat + 1) (strLen line))

/-- The lines left from line `i`: "" when all are fields, else the rejecting status. -/
def hsHeaders : List Str → Nat → Headers → Nat → Str
  | [], _, _, _ => []
  | line :: lines, i, acc, limit =>
    if i > limit then "431".toList
    else if line = [] then "400".toList
    else
      let c0 := strCharAt line 0
      if c0 = 32 ∨ c0 = 9 then "400".toList
      else
        let colon := strIndexOf line ":".toList 0
        if colon ≤ 0 then "400".toList
        else if !hsIsToken (strSlice line 0 colon.toNat) 0 then "400".toList
        else hsHeaders lines (i + 1) (mergeField acc (fieldKey line) (fieldValue line)) limit

def hsHeadersMap : List Str → Headers → Headers
  | [], acc => acc
  | line :: lines, acc => hsHeadersMap lines (mergeField acc (fieldKey line) (fieldValue line))

def hsListHas (value want : Str) : Bool :=
  (strSplit (strToLower value) ",".toList).any fun part => strTrim part == want

def hsAllDigits : Str → Nat → Bool
  | [], i => decide (i > 0)
  | c :: s, i => if c.toNat < 48 ∨ c.toNat > 57 then false else hsAllDigits s (i + 1)

/-- Parse the head, bytes [0, e) of `b`. -/
def hsParseHead (b : List Int) (e : Nat) : HttpRequest :=
  if !hsCtlFree b 0 e then hsReject 400
  else
    let lines := strSplit (hsAscii b 0 e) "\x0d\n".toList
    match strSplit (lines.headD []) " ".toList with
    | [method, target, version] =>
      if !hsIsToken method 0 || target.isEmpty then hsReject 400
      else if version ≠ "HTTP/1.1".toList ∧ version ≠ "HTTP/1.0".toList then
        if strStartsWith version "HTTP/".toList then hsReject 505 else hsReject 400
      else
        let herr := hsHeaders lines.tail 1 ∅ 256
        if herr ≠ [] then hsReject (strParseInt herr)
        else
          let headers := hsHeadersMap lines.tail ∅
          if version = "HTTP/1.1".toList ∧ (headers.lookup "host".toList).isNone then hsReject 400
          else
            let q := strIndexOf target "?".toList 0
            let path := if q ≥ 0 then strSlice target 0 q.toNat else target
            let query := if q ≥ 0 then strSlice target (q.toNat + 1) (strLen target) else []
            let conn := (headers.lookup "connection".toList).getD []
            let keep := if version = "HTTP/1.1".toList then !hsListHas conn "close".toList
              else hsListHas conn "keep-alive".toList
            ⟨method, target, path, query, version, headers, [], keep, true, 0⟩
    | _ => hsReject 400

/-- The other values of a repeated length agree with the first. -/
def hsClAgree (cls : List Str) (first : Str) : Bool := cls.all fun c => strTrim c == first

/-- How the body is delimited: -1 none, -2 chunked, -3 rejected, -4 an unsupported coding,
-5 a length too large to read, else the Content-Length. -/
def hsBodyKind (r : HttpRequest) : Int :=
  let te := r.headers.lookup "transfer-encoding".toList
  let cl := r.headers.lookup "content-length".toList
  if te.isSome ∧ cl.isSome then -3
  else if te.isSome ∧ r.version ≠ "HTTP/1.1".toList then -3
  else
    match te with
    | some value =>
      let codings := strSplit (strToLower value) ",".toList
      if strTrim (codings.getLastD []) ≠ "chunked".toList then -4
      else if codings.length = 1 then -2 else -4
    | none =>
      match cl with
      | none => -1
      | some value =>
        let cls := strSplit value ",".toList
        let first := strTrim (cls.headD [])
        if !hsAllDigits first 0 then -3
        else if !hsClAgree cls.tail first then -3
        else if strLen first > 15 then -5
        else strParseInt first

/-- Hex digits to a value; -1 on a non-digit, an empty string or more than eight of them. -/
def hsHex : Str → Nat → Int → Int
  | [], i, acc => if i = 0 then -1 else acc
  | c :: s, i, acc =>
    if i ≥ 8 then -1
    else
      let n : Int := c.toNat
      let d := if n ≥ 48 ∧ n ≤ 57 then n - 48 else if n ≥ 97 ∧ n ≤ 102 then n - 87
        else if n ≥ 65 ∧ n ≤ 70 then n - 55 else -1
      if d < 0 then -1 else hsHex s (i + 1) (acc * 16 + d)

/-- The size a chunk's size line gives, its extension dropped. -/
def chunkSize (line : Str) : Int :=
  let semi := strIndexOf line ";".toList 0
  hsHex (strTrim (if semi ≥ 0 then strSlice line 0 semi.toNat else line)) 0 0

example : hsHex "1aF".toList 0 0 = 431 := by decide

/-!
## Replies on the wire

A whole reply is its head, with Content-Length and Connection added, and its body.  A
streamed reply is a head and then steps, each sent as one chunk over HTTP/1.1.
-/

/-- A whole reply; `headers` are complete lines. -/
structure HttpReply where
  status : Int
  headers : List Str
  body : List Int

/-- The UTF-8 bytes of a codepoint. -/
def hsEncCp (c : Nat) : List Nat :=
  if c < 128 then [c]
  else if c < 2048 then [192 ||| (c >>> 6), 128 ||| (c &&& 63)]
  else if c < 65536 then
    [224 ||| (c >>> 12), 128 ||| ((c >>> 6) &&& 63), 128 ||| (c &&& 63)]
  else
    [240 ||| (c >>> 18), 128 ||| ((c >>> 12) &&& 63), 128 ||| ((c >>> 6) &&& 63),
      128 ||| (c &&& 63)]

def httpBytes (s : Str) : List Int := s.flatMap fun c => (hsEncCp c.toNat).map fun n => (n : Int)

def httpReason (code : Int) : Str :=
  if code = 200 then "OK".toList
  else if code = 201 then "Created".toList
  else if code = 204 then "No Content".toList
  else if code = 301 then "Moved Permanently".toList
  else if code = 302 then "Found".toList
  else if code = 304 then "Not Modified".toList
  else if code = 400 then "Bad Request".toList
  else if code = 401 then "Unauthorized".toList
  else if code = 403 then "Forbidden".toList
  else if code = 404 then "Not Found".toList
  else if code = 405 then "Method Not Allowed".toList
  else if code = 408 then "Request Timeout".toList
  else if code = 409 then "Conflict".toList
  else if code = 411 then "Length Required".toList
  else if code = 413 then "Content Too Large".toList
  else if code = 414 then "URI Too Long".toList
  else if code = 415 then "Unsupported Media Type".toList
  else if code = 431 then "Request Header Fields Too Large".toList
  else if code = 500 then "Internal Server Error".toList
  else if code = 501 then "Not Implemented".toList
  else if code = 503 then "Service Unavailable".toList
  else if code = 505 then "HTTP Version Not Supported".toList
  else "Unknown".toList

def httpReplyText (status : Int) (contentType body : Str) : HttpReply :=
  ⟨status, ["Content-Type: ".toList ++ contentType], httpBytes body⟩

/-- A plain-text page for `status`: the code and its reason phrase. -/
def httpReplyStatus (status : Int) : HttpReply :=
  httpReplyText status "text/plain; charset=utf-8".toList
    (intText status ++ " ".toList ++ httpReason status ++ "\n".toList)

def hsHeaderLines (hs : List Str) : Str :=
  finishText (hs.flatMap fun h => h ++ "\x0d\n".toList)

/-- The wire bytes of `reply`; a HEAD reply and a 1xx, 204 or 304 carry no body. -/
def httpReplyWire (reply : HttpReply) (keepAlive headOnly : Bool) : List Int :=
  let conn := if keepAlive then "keep-alive".toList else "close".toList
  let head := "HTTP/1.1 ".toList ++ intText reply.status ++ " ".toList ++
    httpReason reply.status ++ "\x0d\n".toList ++ hsHeaderLines reply.headers ++
    "Content-Length: ".toList ++ intText reply.body.length ++ "\x0d\nConnection: ".toList ++
    conn ++ "\x0d\n\x0d\n".toList
  let bodyless := headOnly || reply.status == 204 || reply.status == 304 ||
    (decide (reply.status ≥ 100) && decide (reply.status < 200))
  if bodyless then httpBytes head else httpBytes head ++ reply.body

/-! ## Streams -/

/-- One step of a stream: bytes to send, the state to resume from and the wait before the
next step; `done` ends the stream after `out`. -/
structure HttpStep (κ : Type) where
  state : κ
  out : List Int
  waitMs : Int
  done : Bool

/-- A streamed reply: its head, the first step and the function that makes each step after. -/
structure HttpStream (κ : Type) where
  status : Int
  headers : List Str
  first : HttpStep κ
  next : κ → HttpStep κ

inductive HttpOut (κ : Type)
  | whole (reply : HttpReply)
  | stream (s : HttpStream κ)

/-- One chunk of a chunked body; an empty one is skipped, as it would end it. -/
def hsChunk (b : List Int) (chunked : Bool) : List Int :=
  if !chunked || b.length == 0 then b
  else httpBytes (Nat.toDigits 16 b.length ++ "\x0d\n".toList) ++ b ++ [13, 10]

variable {κ : Type}

def hsStreamHead (s : HttpStream κ) (chunked keep : Bool) : List Int :=
  let te := if chunked then "Transfer-Encoding: chunked\x0d\n".toList else []
  let conn := if keep then [] else "Connection: close\x0d\n".toList
  httpBytes ("HTTP/1.1 ".toList ++ intText s.status ++ " ".toList ++ httpReason s.status ++
    "\x0d\n".toList ++ hsHeaderLines s.headers ++ te ++ conn ++ "\x0d\n".toList)

/-- What a step adds to the stream: its chunk, and the last chunk when it is done. -/
def hsStepBytes (st : HttpStep κ) (chunked : Bool) : List Int :=
  let last := if st.done && chunked then [48, 13, 10, 13, 10] else []
  hsChunk st.out chunked ++ last

end Http
