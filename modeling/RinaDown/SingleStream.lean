import RinaDown.Texts

/-!
# The single-stream download

A file is downloaded over one connection at a time. A partial file is continued by ranges that
begin at its last whole MiB; a reply that does not continue it is written from its start. The
file is on disk between the calls; a call that is cancelled, that fails or that is killed leaves
what it has written so far.
-/

namespace RinaDown.SingleStream

open CharacterPatterns (Text)
open Texts (parseI64 trim)

abbrev Bytes := List UInt8

inductive DownloadError where
  | request (message : String)
  | io (message : String)
  | cancelled
  | versionChanged (message : String)
  | other (message : String)
deriving DecidableEq

inductive ContentEncoding where
  | gzip
  | brotli
  | deflate
  | zstd
deriving DecidableEq

/-- A piece of a body: data, an error of the stream, a stall, a cancellation of the download, or
an end of the program, or of its writing, that loses the last bytes written. -/
inductive Item where
  | data (bytes : Bytes)
  | failed (message : String)
  | stalled
  | cancelled
  | killed (lost : ℕ)
deriving DecidableEq

/-- A reply with the headers that the download reads, and its body. -/
structure Reply where
  status : ℕ
  etag : String
  lastModified : String
  contentType : Text
  contentEncoding : Option Text
  contentRange : Option Text
  contentLength : Option ℕ
  body : List Item
deriving DecidableEq

structure Params where
  getLike : Bool
  supportsRange : Bool
  totalBytes : ℤ
  expectedFilename : Text
  expectedEtag : String
  expectedLastModified : String
deriving DecidableEq

structure SingleDownloadResult where
  responseContentLength : ℤ
  decompressed : Bool
  latchedLastModified : Option String
  resumedRangeStart : Option ℤ
deriving DecidableEq

def maxSingleResumeRangeBytes : ℤ := 16 * 1024 * 1024

def singleResumeAlignmentBytes : ℤ := 1024 * 1024

/-! ## Headers -/

def lowercase (text : Text) : Text := text.map Char.toLower

def splitOn (sep : Char) (text : Text) : List Text := text.splitOnP (· == sep)

def codings (header : Text) : List Text :=
  (splitOn ',' header).map fun part => lowercase (trim part)

def decoderOf (coding : Text) : Option ContentEncoding :=
  if coding = "gzip".toList ∨ coding = "x-gzip".toList then some .gzip
  else if coding = "br".toList ∨ coding = "brotli".toList then some .brotli
  else if coding = "deflate".toList then some .deflate
  else if coding = "zstd".toList then some .zstd
  else none

def detectContentEncoding (header : Option Text) : Option ContentEncoding :=
  header.bind fun value => (codings value).findSome? decoderOf

def isIdentity (coding : Text) : Bool :=
  coding = "identity".toList ∨ coding = "none".toList ∨ coding = []

/-- The codings that cannot be undone: an unknown one, or more than one. -/
def unsupportedContentEncoding (header : Option Text) : Option Text :=
  header.bind fun value =>
    let layers := (codings value).filter (!isIdentity ·)
    if layers.any (fun coding => (decoderOf coding).isNone) || decide (1 < layers.length) then
      some ([',', ' '].intercalate layers)
    else none

def stripBytesUnit (raw : Text) : Option Text :=
  if lowercase ((trim raw).take 6) = "bytes ".toList then some ((trim raw).drop 6) else none

def parseContentRangeStart (raw : Text) : Option ℤ :=
  (stripBytesUnit raw).bind fun rest =>
    parseI64 (trim ((rest.takeWhile (· ≠ '/')).takeWhile (· ≠ '-')))

def isRangeResponseMisaligned (crStart : Option ℤ) (actualStart : ℤ) : Bool :=
  match crStart with
  | some s => s ≠ actualStart
  | none => 0 < actualStart

def filenameLooksLikeHtml (name : Text) : Bool :=
  [".html", ".htm", ".xhtml"].any fun ending => ending.toList.isSuffixOf (lowercase name)

def mimeOf (contentType : Text) : Text :=
  lowercase (trim (contentType.takeWhile (· ≠ ';')))

def isHtml (contentType : Text) : Bool :=
  mimeOf contentType = "text/html".toList ∨ mimeOf contentType = "application/xhtml+xml".toList

/-! ## Bodies -/

/-- What a body adds to the file, and how reading it ends. -/
def readStream : List Item → Bytes → Except DownloadError Unit × Bytes
  | [], written => (.ok (), written)
  | .data bytes :: items, written => readStream items (written ++ bytes)
  | .failed message :: _, written => (.error (.io message), written)
  | .stalled :: _, written =>
      (.error (.other "download stalled: no data received for 10s"), written)
  | .cancelled :: _, written => (.error .cancelled, written)
  | .killed lost :: _, written =>
      (.error (.io "interrupted"), written.take (written.length - lost))

def dataOf : List Item → Bytes
  | .data bytes :: items => bytes ++ dataOf items
  | _ => []

def isWhole : List Item → Bool
  | [] => true
  | .data _ :: items => isWhole items
  | _ => false

/-! ## One request -/

variable (decompress : ContentEncoding → List Item → List Item) (p : Params)

def wantResume (physicalLen : ℤ) : Bool :=
  p.getLike && p.supportsRange && decide (0 < physicalLen) &&
    (decide (p.totalBytes = 0) || decide (physicalLen < p.totalBytes))

/-- The bytes that a continued download keeps. -/
def existingLen (physicalLen : ℤ) : ℤ :=
  if wantResume p physicalLen then physicalLen - physicalLen % singleResumeAlignmentBytes
  else physicalLen

/-- The range that is requested, if any. -/
def rangeOf (physicalLen : ℤ) : Option String :=
  if wantResume p physicalLen then
    let start := existingLen p physicalLen
    if 0 < p.totalBytes then
      some s!"bytes={start}-{min (start + (maxSingleResumeRangeBytes - 1)) (p.totalBytes - 1)}"
    else some s!"bytes={start}-"
  else none

def validatorsDiffer (r : Reply) : Bool :=
  (p.expectedEtag ≠ "" ∧ r.etag ≠ "" ∧ r.etag ≠ p.expectedEtag) ∨
    (p.expectedLastModified ≠ "" ∧ r.lastModified ≠ "" ∧
      r.lastModified ≠ p.expectedLastModified)

/-- The replies to a request and to the one that repeats it without a range. -/
structure Exchange where
  first : Except String Reply
  second : Except String Reply

def errorForStatus (reply : Except String Reply) : Except DownloadError Reply :=
  match reply with
  | .error e => .error (.request e)
  | .ok r => if 400 ≤ r.status then .error (.request s!"HTTP status {r.status}") else .ok r

/-- The reply whose body is read, after the checks of the replies. -/
def respond (physicalLen : ℤ) (x : Exchange) : Except DownloadError Reply :=
  match errorForStatus x.first with
  | .error e => .error e
  | .ok r =>
      if wantResume p physicalLen && r.status == 206 && validatorsDiffer p r then
        .error (.versionChanged "validator mismatch on resumed Range response")
      else if wantResume p physicalLen && r.status == 206 &&
          (detectContentEncoding r.contentEncoding).isSome then
        errorForStatus x.second
      else .ok r

/-- The checks of the headers of a reply before its body is written. -/
def acceptReply (r : Reply) : Except DownloadError Unit :=
  if isHtml r.contentType && !filenameLooksLikeHtml p.expectedFilename then
    .error (.other (s!"server returned HTML page (Content-Type: {String.ofList (mimeOf r.contentType)}) " ++
      "for a non-HTML download — aborting to avoid corrupting saved file. Likely causes: " ++
      "form-POST URL accessed via GET, expired one-time CDN token, or site requires " ++
      "authentication that the extension did not capture."))
  else
    match unsupportedContentEncoding r.contentEncoding with
    | some unsupported => .error (.other
        (s!"server applied an unsupported or multi-layered response compression scheme " ++
          s!"'{String.ofList unsupported}'; cannot decode the body — refusing to write raw " ++
          "bytes to disk"))
    | none => .ok ()

/-- The reply continues the file. -/
def actualResume (physicalLen : ℤ) (r : Reply) : Bool :=
  wantResume p physicalLen && r.status == 206 && (detectContentEncoding r.contentEncoding).isNone &&
    !isRangeResponseMisaligned (r.contentRange.bind parseContentRangeStart)
      (existingLen p physicalLen)

def bodyOf (r : Reply) : List Item :=
  match detectContentEncoding r.contentEncoding with
  | some encoding => decompress encoding r.body
  | none => r.body

def lengthOf (file : Option Bytes) : ℤ := ((file.map List.length).getD 0 : ℕ)

/-- The bytes of the file that stay before the body of a reply is written. -/
def kept (file : Option Bytes) (r : Reply) : Bytes :=
  if actualResume p (lengthOf file) r then
    (file.getD []).take (existingLen p (lengthOf file)).toNat
  else []

def resultOf (physicalLen : ℤ) (r : Reply) : SingleDownloadResult where
  responseContentLength :=
    match r.contentLength with
    | some cl => if actualResume p physicalLen r then existingLen p physicalLen + cl else cl
    | none => -1
  decompressed := (detectContentEncoding r.contentEncoding).isSome
  latchedLastModified := if actualResume p physicalLen r then none else some r.lastModified
  resumedRangeStart :=
    if actualResume p physicalLen r then some (existingLen p physicalLen) else none

def downloadSingleOnce (file : Option Bytes) (x : Exchange) :
    Except DownloadError SingleDownloadResult × Option Bytes :=
  match respond p (lengthOf file) x with
  | .error e => (.error e, file)
  | .ok r =>
      match acceptReply p r with
      | .error e => (.error e, file)
      | .ok _ =>
          let read := readStream (bodyOf decompress r) []
          (read.1.map fun _ => resultOf p (lengthOf file) r, some (kept p file r ++ read.2))

/-- Where the loop ends after a request; `none` if it makes another one. -/
def loopEnd : Except DownloadError SingleDownloadResult × Option Bytes →
    Option (Except DownloadError SingleDownloadResult × Option Bytes)
  | (.error e, file) => some (.error e, file)
  | (.ok result, file) =>
      match result.resumedRangeStart with
      | none => some (.ok result, file)
      | some rangeStart =>
          if p.totalBytes ≤ 0 then some (.ok result, file)
          else if p.totalBytes ≤ lengthOf file then some (.ok result, file)
          else if lengthOf file ≤ rangeStart then
            some (.error (.other (s!"resumed Range returned no data before expected total: " ++
              s!"{lengthOf file}/{p.totalBytes}")), file)
          else none

/-- The loop, for the replies that the server still gives. -/
def downloadSingle : List Exchange → Option Bytes →
    Except DownloadError SingleDownloadResult × Option Bytes
  | [], file => (.error (.request "error sending request"), file)
  | x :: exchanges, file =>
      (loopEnd p (downloadSingleOnce decompress p file x)).getD
        (downloadSingle exchanges (downloadSingleOnce decompress p file x).2)

end RinaDown.SingleStream
