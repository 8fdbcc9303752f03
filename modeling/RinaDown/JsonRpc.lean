import RinaDown.Aria2
import RinaDown.Programs

/-!
# The JSON-RPC endpoint

A request body is a call, or a list of calls that are answered one after the other. A call
names its method and carries its parameters; a multicall carries the calls that it makes in
its first parameter. A method answers from the operations of the host of the endpoint.
-/

namespace RinaDown.JsonRpc

open Aria2 KeyedTable Programs
open Strings (trim)

inductive ApiError where
  | notFound
  | badRequest (message : String)
  | unavailable
  | conflict (message : String)
  | unauthorized
  | internal (message : String)

def ApiError.toText : ApiError → String
  | .notFound => "not found"
  | .badRequest message => message
  | .unavailable => "app shutting down"
  | .conflict message => message
  | .unauthorized => "unauthorized"
  | .internal message => message

/-- The operations of an `ApiHost` that the methods call. -/
inductive ApiOp where
  | listTasks
  | createTask (req : CreateTaskRequest)
  | deleteTask (taskId : String) (deleteFiles : Bool)
  | pauseTask (taskId : String)
  | continueTask (taskId : String)
  | pauseAll
  | continueAll
  | getConfig
  | applyConfig (changes : Table String String)
  | liveSpeeds
deriving DecidableEq

abbrev ApiOp.Reply : ApiOp → Type
  | .listTasks => Except ApiError (List TaskDto)
  | .createTask _ => Except ApiError String
  | .getConfig => Except ApiError (Table String String)
  | .liveSpeeds => Except ApiError (Table String LiveSpeed)
  | _ => Except ApiError Unit

abbrev Rpc := Program ApiOp ApiOp.Reply

/-- What the endpoint takes from its platform: the reader of JSON, which returns the text of
its error, the paths, and the identifier of the session. -/
structure Platform where
  fromSlice : List UInt8 → Except String Value
  joinPath : String → String → String
  sessionId : String

/-! ## Answers -/

def rpcOk (id result : Value) : Value :=
  .object [("jsonrpc", .string "2.0"), ("id", id), ("result", result)]

def errorOf (code : ℤ) (message : String) : Value :=
  .object [("code", .number (.int code)), ("message", .string message)]

def rpcErr (id : Value) (code : ℤ) (message : String) : Value :=
  .object [("jsonrpc", .string "2.0"), ("id", id), ("error", errorOf code message)]

def unitResult (id : Value) : Except ApiError Unit → Value
  | .ok _ => rpcOk id (.string "OK")
  | .error e => rpcErr id 1 e.toText

def gidResult (id : Value) (gid : String) : Except ApiError Unit → Value
  | .ok _ => rpcOk id (.string gid)
  | .error e => rpcErr id 1 e.toText

/-- `Result::unwrap_or_default` of a table. -/
def orEmpty {K V : Type} : Except ApiError (Table K V) → Table K V
  | .ok table => table
  | .error _ => []

/-! ## Methods -/

variable (p : Platform) (arr : List Value) (id : Value)

/-- The required parameter at an index, as a value of the type that is read from it. -/
def require {α : Type} (index : ℕ) (read : Value → Option α) : Except Value α :=
  match arr[index]? with
  | none => .error (rpcErr id 1 (errMissingParam index))
  | some v =>
      match read v with
      | none => .error (rpcErr id 1 (errWrongTypeParam index))
      | some a => .ok a

def requireGid : Except Value String := require arr id 0 Value.asStr

def findTaskByGid (gid : String) : Rpc (Except String TaskDto) := do
  let tasks : Except ApiError (List TaskDto) ← Program.perform ApiOp.listTasks
  match tasks with
  | .error e => return .error e.toText
  | .ok tasks => return resolveGid tasks gid

def createTaskAndRespond (req : CreateTaskRequest) : Rpc Value := do
  let created : Except ApiError String ← Program.perform (ApiOp.createTask req)
  match created with
  | .ok taskId => return rpcOk id (.string (taskIdToGid taskId))
  | .error e => return rpcErr id 1 e.toText

def addUri : Rpc Value :=
  match require arr id 0 Value.asArray with
  | .error resp => return resp
  | .ok uris =>
      match ((uris.filterMap Value.asStr).map trim).find? (!·.isEmpty) with
      | none => return rpcErr id 1 "URI is not provided."
      | some url =>
          match parseRequestOptions (arr[1]?.bind Value.asObject) with
          | .error e => return rpcErr id 1 e
          | .ok opts => createTaskAndRespond id (buildCreateTaskRequest url none opts)

def addTorrent : Rpc Value :=
  match require arr id 0 Value.asStr with
  | .error resp => return resp
  | .ok torrent =>
      if (trim torrent).isEmpty then return rpcErr id 1 "No Torrent to download."
      else
        match parseRequestOptions (arr[2]?.bind Value.asObject) with
        | .error e => return rpcErr id 1 e
        | .ok opts => createTaskAndRespond id (buildCreateTaskRequest "" (some torrent) opts)

/-- A method about the task of a required GID. -/
def withTask (answer : TaskDto → Rpc Value) : Rpc Value :=
  match requireGid arr id with
  | .error resp => return resp
  | .ok gid => do
      match ← findTaskByGid gid with
      | .error e => return rpcErr id 1 e
      | .ok task => answer task

def removeDownload : Rpc Value := withTask arr id fun task => do
  let result : Except ApiError Unit ← Program.perform (ApiOp.deleteTask task.taskId false)
  return gidResult id (taskIdToGid task.taskId) result

def pauseDownload : Rpc Value := withTask arr id fun task => do
  let result : Except ApiError Unit ← Program.perform (ApiOp.pauseTask task.taskId)
  return gidResult id (taskIdToGid task.taskId) result

def unpauseDownload : Rpc Value := withTask arr id fun task => do
  let result : Except ApiError Unit ← Program.perform (ApiOp.continueTask task.taskId)
  return gidResult id (taskIdToGid task.taskId) result

def pauseAll : Rpc Value := do
  let result : Except ApiError Unit ← Program.perform ApiOp.pauseAll
  return unitResult id result

def unpauseAll : Rpc Value := do
  let result : Except ApiError Unit ← Program.perform ApiOp.continueAll
  return unitResult id result

def speeds : Rpc (Table String LiveSpeed) := do
  let speeds : Except ApiError (Table String LiveSpeed) ← Program.perform ApiOp.liveSpeeds
  return orEmpty speeds

def statusOf (keys : List String) (speeds : Table String LiveSpeed) (task : TaskDto) : Value :=
  filterKeys (buildStatusObject p.joinPath task ((speeds.lookup task.taskId).getD {})) keys

def tellStatus : Rpc Value := withTask arr id fun task => do
  let speeds ← speeds
  return rpcOk id (statusOf p (parseKeys arr[1]?) speeds task)

def tellActive : Rpc Value := do
  let tasks : Except ApiError (List TaskDto) ← Program.perform ApiOp.listTasks
  match tasks with
  | .error e => return rpcErr id 1 e.toText
  | .ok tasks => do
      let speeds ← speeds
      return rpcOk id (.array ((tasks.filter (isActiveStatus ·.status)).map
        (statusOf p (parseKeys arr[0]?) speeds)))

def tellWaitingOrStopped (waiting : Bool) : Rpc Value :=
  match require arr id 0 Value.asI64 with
  | .error resp => return resp
  | .ok offset =>
      match require arr id 1 Value.asI64 with
      | .error resp => return resp
      | .ok num =>
          if num < 0 then return rpcErr id 1 (errIntegerGe 1 0)
          else do
            let tasks : Except ApiError (List TaskDto) ← Program.perform ApiOp.listTasks
            match tasks with
            | .error e => return rpcErr id 1 e.toText
            | .ok tasks => do
                let bucket := tasks.filter fun t =>
                  bif waiting then isWaitingStatus t.status else isStoppedStatus t.status
                let speeds ← speeds
                match paginate bucket offset num with
                | none => Program.panic
                | some page =>
                    return rpcOk id (.array (page.map (statusOf p (parseKeys arr[2]?) speeds)))

def getUris : Rpc Value := withTask arr id fun task => return rpcOk id (buildUrisArray task)

def getFiles : Rpc Value := withTask arr id fun task =>
  return rpcOk id (.array [buildFileEntry p.joinPath task])

def getOption : Rpc Value := withTask arr id fun task => return rpcOk id (buildGetOption task)

def getGlobalOption : Rpc Value := do
  let config : Except ApiError (Table String String) ← Program.perform ApiOp.getConfig
  return rpcOk id (buildGlobalOption (orEmpty config))

def changeGlobalOption : Rpc Value :=
  match require arr id 0 Value.asObject with
  | .error resp => return resp
  | .ok options =>
      match mapChangeGlobalOptions options with
      | .error e => return rpcErr id 1 e
      | .ok [] => return rpcOk id (.string "OK")
      | .ok changes => do
          let result : Except ApiError Unit ← Program.perform (ApiOp.applyConfig changes)
          return unitResult id result

/-- `Iterator::sum` of `i64` numbers, which wraps. -/
def sumI64 (numbers : List ℤ) : ℤ := numbers.sum.bmod (2 ^ 64)

def getGlobalStat : Rpc Value := do
  let tasks : Except ApiError (List TaskDto) ← Program.perform ApiOp.listTasks
  match tasks with
  | .error e => return rpcErr id 1 e.toText
  | .ok tasks => do
      let speeds ← speeds
      let count (f : ℤ → Bool) := Value.string (toString (tasks.countP fun t => f t.status))
      return rpcOk id (.object [
        ("downloadSpeed", .string (toString (sumI64 (speeds.map fun e => e.2.downloadBps)))),
        ("uploadSpeed", .string (toString (sumI64 (speeds.map fun e => e.2.uploadBps)))),
        ("numActive", count isActiveStatus), ("numWaiting", count isWaitingStatus),
        ("numStopped", count isStoppedStatus), ("numStoppedTotal", count isStoppedStatus)])

/-- The tasks are deleted one by one, whatever the replies. -/
def deleteTasks : List TaskDto → Rpc Unit
  | [] => return ()
  | t :: tasks => do
      let _ : Except ApiError Unit ← Program.perform (ApiOp.deleteTask t.taskId false)
      deleteTasks tasks

def purgeDownloadResult : Rpc Value := do
  let tasks : Except ApiError (List TaskDto) ← Program.perform ApiOp.listTasks
  match tasks with
  | .error _ => return rpcOk id (.string "OK")
  | .ok tasks => do
      deleteTasks (tasks.filter (isStoppedStatus ·.status))
      return rpcOk id (.string "OK")

def removeDownloadResult : Rpc Value := withTask arr id fun task =>
  if !isStoppedStatus task.status then
    return rpcErr id 1 s!"Could not remove download result of GID#{taskIdToGid task.taskId}"
  else do
    let result : Except ApiError Unit ← Program.perform (ApiOp.deleteTask task.taskId false)
    return unitResult id result

def names (l : List String) : Value := .array (l.map .string)

def dispatchMethod (method : String) (arr : List Value) (id : Value) : Rpc Value :=
  match method with
  | "aria2.addUri" => addUri arr id
  | "aria2.addTorrent" => addTorrent arr id
  | "aria2.remove" | "aria2.forceRemove" => removeDownload arr id
  | "aria2.pause" | "aria2.forcePause" => pauseDownload arr id
  | "aria2.unpause" => unpauseDownload arr id
  | "aria2.pauseAll" | "aria2.forcePauseAll" => pauseAll id
  | "aria2.unpauseAll" => unpauseAll id
  | "aria2.tellStatus" => tellStatus p arr id
  | "aria2.tellActive" => tellActive p arr id
  | "aria2.tellWaiting" => tellWaitingOrStopped p arr id true
  | "aria2.tellStopped" => tellWaitingOrStopped p arr id false
  | "aria2.getUris" => getUris arr id
  | "aria2.getFiles" => getFiles p arr id
  | "aria2.getOption" => getOption arr id
  | "aria2.getGlobalOption" => getGlobalOption id
  | "aria2.changeGlobalOption" => changeGlobalOption arr id
  | "aria2.getGlobalStat" => getGlobalStat id
  | "aria2.purgeDownloadResult" => purgeDownloadResult id
  | "aria2.removeDownloadResult" => removeDownloadResult arr id
  | "aria2.getVersion" => return rpcOk id (.object
      [("version", .string aria2Version), ("enabledFeatures", names enabledFeatures)])
  | "aria2.getSessionInfo" => return rpcOk id (.object [("sessionId", .string p.sessionId)])
  | "system.listMethods" => return rpcOk id (names methodNames)
  | "system.listNotifications" => return rpcOk id (names notificationNames)
  | "aria2.getPeers" | "aria2.getServers" => return rpcOk id (.array [])
  | "aria2.saveSession" | "aria2.changeOption" => return rpcOk id (.string "OK")
  | "aria2.addMetalink" | "aria2.changePosition" | "aria2.changeUri" | "aria2.shutdown"
  | "aria2.forceShutdown" => return rpcErr id 1 (errUnsupported method)
  | other => return rpcErr id 1 s!"No such method: {other}"

/-! ## Calls -/

/-- `constant_time_eq`: the texts have one length, and no byte differs. -/
def constantTimeEq (a b : String) : Bool :=
  if a.utf8ByteSize ≠ b.utf8ByteSize then false
  else (List.zip a.toUTF8.data.toList b.toUTF8.data.toList).foldl (fun acc e => acc ||| (e.1 ^^^ e.2)) 0 = 0

def jsonrpcTokenOk (params : Value) (configToken : String) (headerTokenOk : Bool) : Bool :=
  if configToken.isEmpty || headerTokenOk then true
  else
    ((((params.asArray.bind List.head?).bind Value.asStr).bind (strip "token:")).map
      (constantTimeEq · configToken)).getD false

def stripTokenPrefix (arr : List Value) : List Value :=
  match arr with
  | .string s :: rest => if startsWith "token:" s then rest else arr
  | _ => arr

def methodOf (key : String) (call : Value) : String :=
  ((call.get key).bind Value.asStr).getD ""

def paramsOf (call : Value) : Value := (call.get "params").getD (.array [])

def idOf (call : Value) : Value := (call.get "id").getD .null

def isExempt (method : String) : Bool :=
  method = "system.listMethods" || method = "system.listNotifications"

/-- The result of a call of a multicall is wrapped in a list; its error is not. -/
def wrapResult (resp : Value) : Value :=
  match resp.get "result" with
  | some result => .array [result]
  | none => (resp.get "error").getD .null

variable (configToken : String) (headerTokenOk : Bool)

/-- One round of the loop of `system_multicall`. -/
def subCall (c : Value) : Rpc Value :=
  let method := methodOf "methodName" c
  if method.isEmpty then return errorOf 1 "Missing methodName."
  else if method = "system.multicall" then
    return errorOf 1 "Recursive system.multicall forbidden."
  else if !isExempt method && !jsonrpcTokenOk (paramsOf c) configToken headerTokenOk then
    return errorOf 1 "Unauthorized"
  else do
    let resp ← dispatchMethod p method (stripTokenPrefix ((paramsOf c).asArray.getD [])) .null
    return wrapResult resp

def systemMulticall (params : List Value) : Rpc Value :=
  match require params id 0 Value.asArray with
  | .error resp => return resp
  | .ok calls => do
      let results ← calls.mapM (subCall p configToken headerTokenOk)
      return rpcOk id (.array results)

def dispatchRpcCall (call : Value) : Rpc Value :=
  let id := idOf call
  let method := methodOf "method" call
  let params := paramsOf call
  if isExempt method then
    dispatchMethod p method (stripTokenPrefix (params.asArray.getD [])) id
  else if method = "system.multicall" then
    systemMulticall p id configToken headerTokenOk (stripTokenPrefix (params.asArray.getD []))
  else if !jsonrpcTokenOk params configToken headerTokenOk then return rpcErr id 1 "Unauthorized"
  else
    match params.asArray with
    | some a => dispatchMethod p method (stripTokenPrefix a) id
    | none => return rpcErr id 1 "params must be an array"

def handleJsonrpc (body : List UInt8) : Rpc Value :=
  match p.fromSlice body with
  | .error e => return rpcErr .null (-32700) s!"parse error: {e}"
  | .ok (.array calls) => do
      let out ← calls.mapM (dispatchRpcCall p configToken headerTokenOk)
      return .array out
  | .ok (.object fields) => dispatchRpcCall p configToken headerTokenOk (.object fields)
  | .ok _ => return rpcErr .null (-32600) "invalid request"

end RinaDown.JsonRpc
