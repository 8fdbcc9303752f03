import RinaDown.KeyedTable
import RinaDown.Texts

/-!
# The aria2 mapping layer

The pure functions between the JSON of an aria2 client and the tasks of the program: GIDs,
statuses, the objects of the answers, pages, and the options of a request and of the whole
program. An object is a table; the order of its keys means nothing.
-/

namespace RinaDown.Aria2

open KeyedTable
open Strings (trim)
open Texts (parseI64)

/-- The value of a number that is an integer, or the text of one that is not. -/
inductive Number where
  | int (n : ℤ)
  | float (text : String)

inductive Value where
  | null
  | bool (b : Bool)
  | number (n : Number)
  | string (s : String)
  | array (values : List Value)
  | object (fields : List (String × Value))

namespace Value

def get (key : String) : Value → Option Value
  | .object fields => fields.lookup key
  | _ => none

def asArray : Value → Option (List Value)
  | .array values => some values
  | _ => none

def asStr : Value → Option String
  | .string s => some s
  | _ => none

def asObject : Value → Option (Table String Value)
  | .object fields => some fields
  | _ => none

def asI64 : Value → Option ℤ
  | .number (.int n) => if -2 ^ 63 ≤ n ∧ n < 2 ^ 63 then some n else none
  | _ => none

end Value

open Value

/-! ## Texts -/

def strip (start s : String) : Option String :=
  if start.toList.isPrefixOf s.toList then some (String.ofList (s.toList.drop start.length))
  else none

def startsWith (start s : String) : Bool := start.toList.isPrefixOf s.toList

def toAsciiLowercase (s : String) : String := s.map Char.toLower

def splitOnce (sep : Char) (s : String) : Option (String × String) :=
  match s.toList.dropWhile (· ≠ sep) with
  | [] => none
  | _ :: rest => some (String.ofList (s.toList.takeWhile (· ≠ sep)), String.ofList rest)

def parseI32 (s : String) : Option ℤ :=
  (parseI64 s.toList).filter fun n => -2 ^ 31 ≤ n ∧ n < 2 ^ 31

def isAsciiHexdigit (c : Char) : Bool :=
  c.isDigit || ('a' ≤ c && c ≤ 'f') || ('A' ≤ c && c ≤ 'F')

def errMissingParam (index : ℕ) : String :=
  s!"The parameter at {index} is required but missing."

def errWrongTypeParam (index : ℕ) : String := s!"The parameter at {index} has wrong type."

def errIntegerGe (index : ℕ) (min : ℤ) : String :=
  s!"The integer parameter at {index} has invalid value: the value must be greater than or " ++
    s!"equal to {min}."

def errUnsupported (method : String) : String := s!"{method} is not supported by RinaDown."

/-! ## Tasks -/

structure TaskDto where
  taskId : String
  url : String
  fileName : String
  saveDir : String
  status : ℤ
  downloadedBytes : ℤ
  totalBytes : ℤ
  errorMessage : String
  proxyUrl : String
  checksum : String
  ignoreTlsErrors : Bool

structure LiveSpeed where
  downloadBps : ℤ := 0
  uploadBps : ℤ := 0

def withoutHyphens (s : String) : String := String.ofList (s.toList.filter (· ≠ '-'))

def taskIdToGid (taskId : String) : String :=
  String.ofList ((toAsciiLowercase (withoutHyphens taskId)).toList.take 16)

def resolveGid (tasks : List TaskDto) (gid : String) : Except String TaskDto :=
  let needle := toAsciiLowercase (withoutHyphens gid)
  let isMalformed := needle.isEmpty || decide (32 < needle.utf8ByteSize) ||
    !needle.toList.all isAsciiHexdigit
  if isMalformed then .error s!"GID {gid} is not found"
  else
    match tasks.filter fun t =>
        startsWith needle (toAsciiLowercase (withoutHyphens t.taskId)) with
    | [] => .error s!"GID {gid} is not found"
    | [t] => .ok t
    | _ => .error s!"GID {gid} is not unique"

def aria2StatusStr (status : ℤ) : String :=
  if status = 0 then "waiting"
  else if status = 1 then "active"
  else if status = 2 then "paused"
  else if status = 3 then "complete"
  else if status = 5 then "active"
  else "error"

def isActiveStatus (status : ℤ) : Bool := status = 1 ∨ status = 5

def isWaitingStatus (status : ℤ) : Bool := status = 0 ∨ status = 2

def isStoppedStatus (status : ℤ) : Bool := status = 3 ∨ status = 4

def buildUrisArray (task : TaskDto) : Value :=
  if (trim task.url).isEmpty then .array []
  else .array [.object [("uri", .string task.url), ("status", .string "used")]]

/-- The path of a file is built by the platform. -/
def buildFileEntry (joinPath : String → String → String) (task : TaskDto) : Value :=
  .object [("index", .string "1"), ("path", .string (joinPath task.saveDir task.fileName)),
    ("length", .string (toString task.totalBytes)),
    ("completedLength", .string (toString task.downloadedBytes)),
    ("selected", .string "true"), ("uris", buildUrisArray task)]

def buildStatusObject (joinPath : String → String → String) (task : TaskDto)
    (speed : LiveSpeed) : Value :=
  .object ([("gid", .string (taskIdToGid task.taskId)),
    ("status", .string (aria2StatusStr task.status)),
    ("totalLength", .string (toString task.totalBytes)),
    ("completedLength", .string (toString task.downloadedBytes)),
    ("uploadLength", .string "0"),
    ("downloadSpeed", .string (toString (max speed.downloadBps 0))),
    ("uploadSpeed", .string (toString (max speed.uploadBps 0))),
    ("connections", .string "0"), ("numPieces", .string "0"), ("pieceLength", .string "0"),
    ("dir", .string task.saveDir), ("files", .array [buildFileEntry joinPath task])] ++
    if isStoppedStatus task.status then
      [("errorCode", .string (if task.status = 3 then "0" else "1")),
        ("errorMessage", .string task.errorMessage)]
    else [])

def whenSet (key value : String) : List (String × Value) :=
  if value.isEmpty then [] else [(key, .string value)]

def buildGetOption (task : TaskDto) : Value :=
  .object (whenSet "dir" task.saveDir ++ whenSet "out" task.fileName ++
    whenSet "all-proxy" task.proxyUrl ++ whenSet "checksum" task.checksum ++
    if task.ignoreTlsErrors then [("check-certificate", .string "false")] else [])

def parseKeys (v : Option Value) : List String :=
  ((v.bind asArray).map fun values => values.filterMap asStr).getD []

def filterKeys (obj : Value) (keys : List String) : Value :=
  if keys.isEmpty then obj
  else
    match obj with
    | .object fields => .object (retain (fun k => keys.any (· = k)) fields)
    | other => other

/-- A page of a list, or a panic: `none`. -/
def paginate {α : Type} (items : List α) (offset num : ℤ) : Option (List α) :=
  let len : ℤ := items.length
  if num ≤ 0 then some []
  else if 0 ≤ offset then
    if len ≤ offset then some []
    -- the sum overflows, or wraps to a slice without an end
    else if 2 ^ 63 ≤ offset + num then none
    else some ((items.take (min (offset + num) len).toNat).drop offset.toNat)
  else
    let stop := len + offset
    if stop < 0 then some []
    else some ((items.take (stop + 1).toNat).drop (stop - (num - 1)).toNat).reverse

/-! ## The options of a request -/

structure RequestOptions where
  fileName : String := ""
  saveDir : String := ""
  referrer : String := ""
  cookies : String := ""
  headers : Option (Table String String) := none
  segments : ℤ := 0
  proxyUrl : String := ""
  userAgent : String := ""
  checksum : String := ""
  ignoreTlsErrors : Bool := false
  httpUser : String := ""
  httpPasswd : String := ""
  pause : Bool := false

structure CreateTaskRequest where
  url : String
  fileName : String
  saveDir : String
  segments : ℤ
  cookies : String
  referrer : String
  proxyUrl : String
  userAgent : String
  queueId : String
  checksum : String
  ignoreTlsErrors : Bool
  headers : Option (Table String String)
  torrentB64 : Option String
  method : Option String
  audioUrl : Option String
  startPaused : Bool
  httpUser : String
  httpPassword : String
  saveSiteAuth : Bool
deriving DecidableEq

def optionIsTrue : Option Value → Bool
  | some (.bool b) => b
  | some (.string s) => s = "true"
  | _ => false

def optionIsFalse : Option Value → Bool
  | some (.bool b) => !b
  | some (.string s) => s = "false"
  | _ => false

def headerLines : Option Value → List String
  | some (.string s) => [s]
  | some (.array values) => values.filterMap asStr
  | _ => []

def readHeader (out : String × String × Table String String) (line : String) :
    String × String × Table String String :=
  match splitOnce ':' line with
  | none => out
  | some (name, value) =>
      let (cookies, referrer, headers) := out
      let lowered := toAsciiLowercase (trim name)
      if lowered = "cookie" then (trim value, referrer, headers)
      else if lowered = "referer" then
        (cookies, if referrer.isEmpty then trim value else referrer, headers)
      else (cookies, referrer, insert (trim name) (trim value) headers)

def parseRequestOptions : Option (Table String Value) → Except String RequestOptions
  | none => .ok {}
  | some opts =>
      if (opts.lookup "gid").isSome then .error "GID reservation is not supported"
      else
        let text key := (opts.lookup key).bind asStr
        let proxy := ((opts.lookup "all-proxy").or
          ((opts.lookup "http-proxy").or (opts.lookup "https-proxy"))).bind asStr
        let out := (headerLines (opts.lookup "header")).foldl readHeader
          ("", (text "referer").getD "", [])
        .ok {
          fileName := (text "out").getD ""
          saveDir := (text "dir").getD ""
          referrer := out.2.1
          cookies := out.1
          headers := if out.2.2.isEmpty then none else some out.2.2
          segments := ((text "split").bind parseI32).getD 0
          proxyUrl := proxy.getD ""
          userAgent := (text "user-agent").getD ""
          checksum := (text "checksum").getD ""
          ignoreTlsErrors := optionIsFalse (opts.lookup "check-certificate")
          httpUser := (text "http-user").getD ""
          httpPasswd := (text "http-passwd").getD ""
          pause := optionIsTrue (opts.lookup "pause") }

def buildCreateTaskRequest (url : String) (torrentB64 : Option String) (opts : RequestOptions) :
    CreateTaskRequest where
  url := url
  fileName := opts.fileName
  saveDir := opts.saveDir
  segments := opts.segments
  cookies := opts.cookies
  referrer := opts.referrer
  proxyUrl := opts.proxyUrl
  userAgent := opts.userAgent
  queueId := ""
  checksum := opts.checksum
  ignoreTlsErrors := opts.ignoreTlsErrors
  headers := opts.headers
  torrentB64 := torrentB64
  method := none
  audioUrl := none
  startPaused := opts.pause
  httpUser := opts.httpUser
  httpPassword := opts.httpPasswd
  saveSiteAuth := false

/-! ## The options of the program -/

structure GlobalOptionMapping where
  aria2Key : String
  configKey : String
  toNative : String → Option String
  defaultNative : String

def saturatingMul (n m : ℤ) : ℤ := max (-2 ^ 63) (min (2 ^ 63 - 1) (n * m))

def unitOf (s : String) : List Char × ℤ :=
  match s.toList.getLast? with
  | some 'k' | some 'K' => (s.toList.dropLast, 1024)
  | some 'm' | some 'M' => (s.toList.dropLast, 1024 * 1024)
  | some 'g' | some 'G' => (s.toList.dropLast, 1024 * 1024 * 1024)
  | _ => (s.toList, 1)

def parseAria2UnitBytes (s : String) : Option ℤ :=
  (parseI64 (Texts.trim (unitOf (trim s)).1)).map fun n =>
    saturatingMul n (unitOf (trim s)).2

def toNativeBytes (s : String) : Option String := (parseAria2UnitBytes s).map toString

def toNativeInt (s : String) : Option String := (parseI64 (trim s).toList).map toString

def toNativeBool (s : String) : Option String :=
  if trim s = "true" then some "true" else if trim s = "false" then some "false" else none

def globalOptionMappings : List GlobalOptionMapping :=
  [⟨"dir","default_save_dir",some,""⟩,
    ⟨"max-concurrent-downloads","max_concurrent_tasks",toNativeInt,"5"⟩,
    ⟨"max-overall-download-limit","speed_limit_bytes",toNativeBytes,"0"⟩,
    ⟨"max-overall-upload-limit","upload_limit_bytes",toNativeBytes,"0"⟩,
    ⟨"split","default_segments",toNativeInt,"5"⟩,
    ⟨"user-agent","global_user_agent",some,"aria2/1.37.0"⟩,
    ⟨"remote-time","use_server_time",toNativeBool,"false"⟩]

def staticGlobalOptionDefaults : List (String × String) :=
  [("max-connection-per-server", "1"), ("min-split-size", "20M"), ("continue", "false"),
    ("max-download-limit", "0"), ("max-upload-limit", "0"), ("timeout", "60"),
    ("connect-timeout", "60"), ("retry-wait", "0"), ("max-tries", "5")]

/-- The first invalid value is the error. -/
def mapChangeGlobalOptions (options : Table String Value) :
    Except String (Table String String) :=
  globalOptionMappings.foldlM (fun changes mapping =>
    match (options.lookup mapping.aria2Key).bind asStr with
    | none => .ok changes
    | some v =>
        match mapping.toNative v with
        | none => .error s!"The value {v} is invalid for --{mapping.aria2Key}."
        | some native => .ok (insert mapping.configKey native changes)) []

def buildGlobalOption (config : Table String String) : Value :=
  .object (globalOptionMappings.map (fun mapping => (mapping.aria2Key,
      .string ((config.lookup mapping.configKey).getD mapping.defaultNative))) ++
    staticGlobalOptionDefaults.map fun option => (option.1, .string option.2))

/-! ## Names -/

def aria2Version : String := "1.37.0"

def enabledFeatures : List String :=
  ["Async DNS", "BitTorrent", "GZip", "HTTPS", "Message Digest"]

def methodNames : List String :=
  ["aria2.addUri", "aria2.addTorrent", "aria2.getPeers", "aria2.addMetalink", "aria2.remove",
    "aria2.pause", "aria2.forcePause", "aria2.pauseAll", "aria2.forcePauseAll",
    "aria2.unpause", "aria2.unpauseAll", "aria2.forceRemove", "aria2.changePosition",
    "aria2.tellStatus", "aria2.getUris", "aria2.getFiles", "aria2.getServers",
    "aria2.tellActive", "aria2.tellWaiting", "aria2.tellStopped", "aria2.getOption",
    "aria2.changeUri", "aria2.changeOption", "aria2.getGlobalOption",
    "aria2.changeGlobalOption", "aria2.purgeDownloadResult", "aria2.removeDownloadResult",
    "aria2.getVersion", "aria2.getSessionInfo", "aria2.shutdown", "aria2.forceShutdown",
    "aria2.getGlobalStat", "aria2.saveSession", "system.multicall", "system.listMethods",
    "system.listNotifications"]

def notificationNames : List String :=
  ["aria2.onDownloadStart", "aria2.onDownloadPause", "aria2.onDownloadStop",
    "aria2.onDownloadComplete", "aria2.onDownloadError", "aria2.onBtDownloadComplete"]

end RinaDown.Aria2
