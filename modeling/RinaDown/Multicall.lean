import RinaDown.JsonRpcAuthorisation
import RinaDown.RelatedPrograms

/-!
# Multicalls

The calls of a multicall, and the same calls at the top level one after another. A method
does the same for both, and what it answers differs in the wrapping only. A multicall takes
parameters that are not a list for an empty list, where a call of the top level is refused;
and a page whose end overflows ends all of a multicall, and only one call of the top level.
-/

namespace RinaDown.Multicall

open Aria2 JsonRpc Programs List Option Bool
open Strings (trim)

structure SubCall where
  id : Value
  methodName : String
  params : Option Value

namespace SubCall

def paramsField (c : SubCall) : List (String × Value) := (c.params.map fun v => ("params", v)).toList

def inner (c : SubCall) : Value := .object (("methodName", .string c.methodName) :: c.paramsField)

def topLevel (c : SubCall) : Value :=
  .object (("jsonrpc", .string "2.0") :: ("id", c.id) :: ("method", .string c.methodName) ::
    c.paramsField)

/-- The parameters, which are an empty list where there are none. -/
def paramsValue (c : SubCall) : Value := c.params.getD (.array [])

/-- The name of a method that can be called in a multicall. -/
def Named (c : SubCall) : Prop := c.methodName ≠ "" ∧ c.methodName ≠ "system.multicall"

end SubCall

def envelope (id : Value) (calls : List SubCall) : Value :=
  .object [("jsonrpc", .string "2.0"), ("id", id), ("method", .string "system.multicall"),
    ("params", .array [.array (calls.map SubCall.inner)])]

section
variable (c : SubCall)

theorem methodOf_inner : methodOf "methodName" c.inner = c.methodName := rfl

theorem methodOf_topLevel : methodOf "method" c.topLevel = c.methodName := rfl

theorem idOf_topLevel : idOf c.topLevel = c.id := rfl

theorem paramsOf_inner : paramsOf c.inner = c.paramsValue := by
  obtain ⟨id,methodName,_ | v⟩ := c <;> rfl

theorem paramsOf_topLevel : paramsOf c.topLevel = c.paramsValue := by
  obtain ⟨id,methodName,_ | v⟩ := c <;> rfl

end

/-! ## A method for two calls -/

/-- Two answers of a method that are the same in a multicall. -/
def Same (a b : Value) : Prop := wrapResult a = wrapResult b

theorem same_ok (id id' result : Value) : Same (rpcOk id result) (rpcOk id' result) := rfl

theorem same_err (id id' : Value) (code : ℤ) (message : String) :
    Same (rpcErr id code message) (rpcErr id' code message) := rfl

theorem same_unitResult (id id' : Value) (r : Except ApiError Unit) :
    Same (unitResult id r) (unitResult id' r) := by
  cases r <;> rfl

theorem same_gidResult (id id' : Value) (gid : String) (r : Except ApiError Unit) :
    Same (gidResult id gid r) (gidResult id' gid r) := by
  cases r <;> rfl

/-- The page that a call asks for ends beyond 64 bits. -/
def Overflows (method : String) (arr : List Value) : Prop :=
  (method = "aria2.tellWaiting" ∨ method = "aria2.tellStopped") ∧
    ∃ offset num : ℤ, (arr[0]?.bind Value.asI64) = some offset ∧
      (arr[1]?.bind Value.asI64) = some num ∧ 0 ≤ offset ∧ 0 < num ∧ 2 ^ 63 ≤ offset + num

section
variable (p : Platform) (arr : List Value) (id id' : Value)

theorem require_cases {α : Type} (index : ℕ) (read : Value → Option α) :
    (∃ message, ∀ id, require arr id index read = .error (rpcErr id 1 message)) ∨
      ∃ a, arr[index]?.bind read = some a ∧ ∀ id, require arr id index read = .ok a := by
  unfold require
  cases arr[index]? with
  | none => exact .inl ⟨_,fun id => rfl⟩
  | some v =>
    rw [bind_some]
    dsimp only
    cases read v with
    | none => exact .inl ⟨_,fun id => rfl⟩
    | some a => exact .inr ⟨a,rfl,fun id => rfl⟩

theorem related_findTaskByGid (gid : String) :
    Related Eq (findTaskByGid gid) (findTaskByGid gid) := by
  apply Related.perform
  intro tasks
  cases tasks <;> exact Related.ret rfl

theorem related_speeds : Related Eq speeds speeds :=
  Related.perform fun _ => Related.ret rfl

theorem related_createTaskAndRespond (req : CreateTaskRequest) :
    Related Same (createTaskAndRespond id req) (createTaskAndRespond id' req) := by
  apply Related.perform
  intro created
  cases created with
  | error e => exact Related.ret (same_err id id' _ _)
  | ok taskId => exact Related.ret (same_ok id id' _)

theorem related_addUri : Related Same (addUri arr id) (addUri arr id') := by
  unfold addUri
  obtain ⟨message,h⟩ | ⟨uris,-,h⟩ := require_cases arr 0 Value.asArray
  · rw [h, h]
    exact Related.ret (same_err id id' _ _)
  · rw [h, h]
    dsimp only
    cases ((uris.filterMap Value.asStr).map trim).find? (!·.isEmpty) with
    | none => exact Related.ret (same_err id id' _ _)
    | some url =>
      dsimp only
      cases parseRequestOptions (arr[1]?.bind Value.asObject) with
      | error e => exact Related.ret (same_err id id' _ _)
      | ok opts => exact related_createTaskAndRespond id id' _

theorem related_addTorrent : Related Same (addTorrent arr id) (addTorrent arr id') := by
  unfold addTorrent
  obtain ⟨message,h⟩ | ⟨torrent,-,h⟩ := require_cases arr 0 Value.asStr
  · rw [h, h]
    exact Related.ret (same_err id id' _ _)
  · rw [h, h]
    dsimp only
    split_ifs
    · exact Related.ret (same_err id id' _ _)
    · cases parseRequestOptions (arr[2]?.bind Value.asObject) with
      | error e => exact Related.ret (same_err id id' _ _)
      | ok opts => exact related_createTaskAndRespond id id' _

theorem related_withTask {answer answer' : TaskDto → Rpc Value}
    (h : ∀ task, Related Same (answer task) (answer' task)) :
    Related Same (withTask arr id answer) (withTask arr id' answer') := by
  unfold withTask requireGid
  obtain ⟨message,hrequire⟩ | ⟨gid,-,hrequire⟩ := require_cases arr 0 Value.asStr
  · rw [hrequire, hrequire]
    exact Related.ret (same_err id id' _ _)
  · rw [hrequire, hrequire]
    refine (related_findTaskByGid gid).bind ?_
    rintro found _ rfl
    cases found with
    | error e => exact Related.ret (same_err id id' _ _)
    | ok task => exact h task

theorem related_removeDownload : Related Same (removeDownload arr id) (removeDownload arr id') :=
  related_withTask arr id id' fun _ =>
    Related.perform fun _ => Related.ret (same_gidResult id id' _ _)

theorem related_pauseDownload : Related Same (pauseDownload arr id) (pauseDownload arr id') :=
  related_withTask arr id id' fun _ =>
    Related.perform fun _ => Related.ret (same_gidResult id id' _ _)

theorem related_unpauseDownload :
    Related Same (unpauseDownload arr id) (unpauseDownload arr id') :=
  related_withTask arr id id' fun _ =>
    Related.perform fun _ => Related.ret (same_gidResult id id' _ _)

theorem related_tellStatus : Related Same (tellStatus p arr id) (tellStatus p arr id') := by
  refine related_withTask arr id id' fun task => related_speeds.bind ?_
  rintro speeds _ rfl
  exact Related.ret (same_ok id id' _)

theorem related_tellActive : Related Same (tellActive p arr id) (tellActive p arr id') := by
  apply Related.perform
  intro tasks
  cases tasks with
  | error e => exact Related.ret (same_err id id' _ _)
  | ok tasks =>
    refine related_speeds.bind ?_
    rintro speeds _ rfl
    exact Related.ret (same_ok id id' _)

theorem related_tellWaitingOrStopped (waiting : Bool)
    (hfits : ∀ offset num : ℤ, (arr[0]?.bind Value.asI64) = some offset →
      (arr[1]?.bind Value.asI64) = some num → ¬(0 ≤ offset ∧ 0 < num ∧ 2 ^ 63 ≤ offset + num)) :
    Related Same (tellWaitingOrStopped p arr id waiting)
      (tellWaitingOrStopped p arr id' waiting) := by
  unfold tellWaitingOrStopped
  obtain ⟨message,h⟩ | ⟨offset,hoffset,h⟩ := require_cases arr 0 Value.asI64
  · rw [h, h]
    exact Related.ret (same_err id id' _ _)
  · obtain ⟨message,h'⟩ | ⟨num,hnum,h'⟩ := require_cases arr 1 Value.asI64
    · rw [h, h, h', h']
      exact Related.ret (same_err id id' _ _)
    · rw [h, h, h', h']
      dsimp only
      split_ifs
      · exact Related.ret (same_err id id' _ _)
      · apply Related.perform
        intro tasks
        cases tasks with
        | error e => exact Related.ret (same_err id id' _ _)
        | ok tasks =>
          refine related_speeds.bind ?_
          rintro speeds _ rfl
          have hpage (bucket : List TaskDto) : ∃ page, paginate bucket offset num = some page := by
            have := hfits offset num hoffset hnum
            unfold paginate
            dsimp only
            split_ifs
            all_goals first | exact ⟨_,rfl⟩ | omega
          obtain ⟨page,hpage⟩ := hpage (tasks.filter fun t =>
            bif waiting then isWaitingStatus t.status else isStoppedStatus t.status)
          rw [hpage]
          exact Related.ret (same_ok id id' _)

theorem related_changeGlobalOption :
    Related Same (changeGlobalOption arr id) (changeGlobalOption arr id') := by
  unfold changeGlobalOption
  obtain ⟨message,h⟩ | ⟨options,-,h⟩ := require_cases arr 0 Value.asObject
  · rw [h, h]
    exact Related.ret (same_err id id' _ _)
  · rw [h, h]
    dsimp only
    cases mapChangeGlobalOptions options with
    | error e => exact Related.ret (same_err id id' _ _)
    | ok changes =>
      cases changes with
      | nil => exact Related.ret (same_ok id id' _)
      | cons change changes =>
        exact Related.perform fun _ => Related.ret (same_unitResult id id' _)

theorem related_getGlobalStat : Related Same (getGlobalStat id) (getGlobalStat id') := by
  apply Related.perform
  intro tasks
  cases tasks with
  | error e => exact Related.ret (same_err id id' _ _)
  | ok tasks =>
    refine related_speeds.bind ?_
    rintro speeds _ rfl
    exact Related.ret (same_ok id id' _)

theorem related_deleteTasks (tasks : List TaskDto) :
    Related Eq (deleteTasks tasks) (deleteTasks tasks) := by
  induction tasks with
  | nil => exact Related.ret rfl
  | cons t tasks ih => exact Related.perform fun _ => ih

theorem related_purgeDownloadResult :
    Related Same (purgeDownloadResult id) (purgeDownloadResult id') := by
  apply Related.perform
  intro tasks
  cases tasks with
  | error e => exact Related.ret (same_ok id id' _)
  | ok tasks => exact (related_deleteTasks _).bind fun _ _ _ => Related.ret (same_ok id id' _)

theorem related_removeDownloadResult :
    Related Same (removeDownloadResult arr id) (removeDownloadResult arr id') := by
  refine related_withTask arr id id' fun task => ?_
  split_ifs
  · exact Related.ret (same_err id id' _ _)
  · exact Related.perform fun _ => Related.ret (same_unitResult id id' _)

/-- A method does the same for every identifier of the call, and does not panic unless the
end of a page overflows. -/
theorem related_dispatchMethod {method : String} (hfits : ¬Overflows method arr) :
    Related Same (dispatchMethod p method arr id) (dispatchMethod p method arr id') := by
  have hpage (hmethod : method = "aria2.tellWaiting" ∨ method = "aria2.tellStopped")
      (offset num : ℤ) (hoffset : (arr[0]?.bind Value.asI64) = some offset)
      (hnum : (arr[1]?.bind Value.asI64) = some num) :
      ¬(0 ≤ offset ∧ 0 < num ∧ 2 ^ 63 ≤ offset + num) := fun h =>
    hfits ⟨hmethod,offset,num,hoffset,hnum,h⟩
  unfold dispatchMethod
  split
  · exact related_addUri arr id id'
  · exact related_addTorrent arr id id'
  · exact related_removeDownload arr id id'
  · exact related_removeDownload arr id id'
  · exact related_pauseDownload arr id id'
  · exact related_pauseDownload arr id id'
  · exact related_unpauseDownload arr id id'
  · exact Related.perform fun _ => Related.ret (same_unitResult id id' _)
  · exact Related.perform fun _ => Related.ret (same_unitResult id id' _)
  · exact Related.perform fun _ => Related.ret (same_unitResult id id' _)
  · exact related_tellStatus p arr id id'
  · exact related_tellActive p arr id id'
  · exact related_tellWaitingOrStopped p arr id id' true (hpage (.inl rfl))
  · exact related_tellWaitingOrStopped p arr id id' false (hpage (.inr rfl))
  · exact related_withTask arr id id' fun _ => Related.ret (same_ok id id' _)
  · exact related_withTask arr id id' fun _ => Related.ret (same_ok id id' _)
  · exact related_withTask arr id id' fun _ => Related.ret (same_ok id id' _)
  · exact Related.perform fun _ => Related.ret (same_ok id id' _)
  · exact related_changeGlobalOption arr id id'
  · exact related_getGlobalStat id id'
  · exact related_purgeDownloadResult id id'
  · exact related_removeDownloadResult arr id id'
  all_goals first
    | exact Related.ret (same_ok id id' _)
    | exact Related.ret (same_err id id' _ _)

end
/-! ## A call in a multicall and at the top level -/

section
variable (p : Platform) (configToken : String) (headerTokenOk : Bool)

/-- The token of the call is missing, and its method needs it. -/
def Refused (c : SubCall) : Prop :=
  isExempt c.methodName = false ∧ jsonrpcTokenOk c.paramsValue configToken headerTokenOk = false

instance (c : SubCall) : Decidable (Refused configToken headerTokenOk c) :=
  inferInstanceAs (Decidable (_ ∧ _))

/-- The call is refused, its method reads no parameters, or the parameters are a list that
does not ask for a page whose end overflows. -/
def Agrees (c : SubCall) : Prop :=
  Refused configToken headerTokenOk c ∨ isExempt c.methodName = true ∨
    ∃ arr, c.paramsValue = .array arr ∧ ¬Overflows c.methodName (stripTokenPrefix arr)

def innerCall (c : SubCall) : Rpc Value := subCall p configToken headerTokenOk c.inner

def topLevelCall (c : SubCall) : Rpc Value := dispatchRpcCall p configToken headerTokenOk c.topLevel

theorem innerCall_eq {c : SubCall} (hnamed : c.Named) : innerCall p configToken headerTokenOk c =
    if Refused configToken headerTokenOk c then pure (errorOf 1 "Unauthorized")
    else wrapResult <$> dispatchMethod p c.methodName
      (stripTokenPrefix (c.paramsValue.asArray.getD [])) .null := by
  obtain ⟨hname,hmulticall⟩ := hnamed
  have hempty : c.methodName.isEmpty = false := eq_false_iff.mpr fun h =>
    hname (String.isEmpty_iff.mp h)
  unfold innerCall subCall
  dsimp only
  rw [methodOf_inner, paramsOf_inner, hempty, if_neg Bool.false_ne_true, if_neg hmulticall]
  simp only [and_eq_true, not_eq_true', bind_pure_comp]
  rfl

theorem topLevelCall_eq {c : SubCall} (hnamed : c.Named) :
    topLevelCall p configToken headerTokenOk c =
      if isExempt c.methodName then
        dispatchMethod p c.methodName (stripTokenPrefix (c.paramsValue.asArray.getD [])) c.id
      else if jsonrpcTokenOk c.paramsValue configToken headerTokenOk = false then
        pure (rpcErr c.id 1 "Unauthorized")
      else
        match c.paramsValue.asArray with
        | some a => dispatchMethod p c.methodName (stripTokenPrefix a) c.id
        | none => pure (rpcErr c.id 1 "params must be an array") := by
  unfold topLevelCall dispatchRpcCall
  dsimp only
  rw [methodOf_topLevel, paramsOf_topLevel, idOf_topLevel, if_neg hnamed.2]
  cases jsonrpcTokenOk c.paramsValue configToken headerTokenOk with
  | false => rfl
  | true => rfl

theorem related_call {c : SubCall} (hnamed : c.Named)
    (h : Agrees configToken headerTokenOk c) :
    Related (fun a b => a = wrapResult b) (innerCall p configToken headerTokenOk c)
      (topLevelCall p configToken headerTokenOk c) := by
  have hmethod {arr : List Value} (hfits : ¬Overflows c.methodName arr) :
      Related (fun a b => a = wrapResult b)
        (wrapResult <$> dispatchMethod p c.methodName arr .null)
        (dispatchMethod p c.methodName arr c.id) := by
    have hsame := related_dispatchMethod p arr .null c.id hfits
    have hmap := hsame.map (f := wrapResult) (g := id) (S := fun a b => a = wrapResult b)
      fun a b hab => hab
    rwa [id_map] at hmap
  rw [innerCall_eq p configToken headerTokenOk hnamed,
    topLevelCall_eq p configToken headerTokenOk hnamed]
  by_cases hrefused : Refused configToken headerTokenOk c
  · rw [if_pos hrefused, hrefused.1, if_neg Bool.false_ne_true, if_pos hrefused.2]
    exact Related.ret rfl
  · rw [if_neg hrefused]
    obtain h | hexempt | ⟨arr,harr,hfits⟩ := h
    · exact absurd h hrefused
    · rw [if_pos hexempt]
      refine hmethod fun hoverflows => ?_
      obtain ⟨h | h,-⟩ := hoverflows
      · rw [h] at hexempt
        exact absurd hexempt (by decide)
      · rw [h] at hexempt
        exact absurd hexempt (by decide)
    · rw [harr]
      change Related _ (wrapResult <$> dispatchMethod p c.methodName (stripTokenPrefix arr) .null) _
      split_ifs with hexempt htoken
      · exact hmethod hfits
      · refine absurd ⟨eq_false_iff.mpr hexempt,?_⟩ hrefused
        rw [harr]
        exact htoken
      · exact hmethod hfits

/-! ## A multicall and its calls -/

theorem dispatchRpcCall_envelope (id : Value) (calls : List SubCall) :
    dispatchRpcCall p configToken headerTokenOk (envelope id calls) =
      (fun results => rpcOk id (.array results)) <$>
        calls.mapM (innerCall p configToken headerTokenOk) := by
  have hmulticall : IsMulticall (envelope id calls) := rfl
  rw [dispatchRpcCall_multicall p headerTokenOk hmulticall]
  have hmap : (calls.map SubCall.inner).mapM (subCall p configToken headerTokenOk) =
      calls.mapM (innerCall p configToken headerTokenOk) := mapM_map
  rw [← hmap, ← bind_pure_comp]
  rfl

variable {σ : Type} (host : Host ApiOp ApiOp.Reply σ)

/-- Every call is answered at the top level; the multicall answers with the same outcomes, and
performs the same operations. -/
def SameOutcomes (id : Value) (calls : List SubCall) (s : σ) : Prop :=
  let multicall := run host (dispatchRpcCall p configToken headerTokenOk (envelope id calls)) s
  let each := runEach host (topLevelCall p configToken headerTokenOk) calls s
  ∃ answers : List Value, each.value = some (answers.map some) ∧
    multicall.value = some (rpcOk id (.array (answers.map wrapResult))) ∧
    multicall.state = each.state ∧ multicall.trace = each.trace

variable {p configToken headerTokenOk host}

theorem sameOutcomes_of_agrees {id : Value} {calls : List SubCall}
    (hnamed : ∀ c ∈ calls, c.Named) (h : ∀ c ∈ calls, Agrees configToken headerTokenOk c) (s : σ) :
    SameOutcomes p configToken headerTokenOk host id calls s := by
  obtain ⟨answers,hvalue,heach,hstate,htrace⟩ := run_mapM_related
    (fun c hc => related_call p configToken headerTokenOk (hnamed c hc) (h c hc)) s
  refine ⟨answers,heach,?_,?_,?_⟩
  · rw [dispatchRpcCall_envelope, run_map, Outcome.map, hvalue]
    rfl
  · rw [dispatchRpcCall_envelope, run_map]
    exact hstate
  · rw [dispatchRpcCall_envelope, run_map]
    exact htrace

end
/-! ## Calls that do not agree -/

theorem answer_without_params (p : Platform) (method : String) :
    ∃ answer, (run failingHost (dispatchMethod p method [] .null) 0).value = some answer ∧
      wrapResult answer ≠ errorOf 1 "params must be an array" := by
  have hresult (result : Value) :
      wrapResult (rpcOk .null result) ≠ errorOf 1 "params must be an array" := by
    intro h
    cases h
  have hmessage {message : String} (hne : message ≠ "params must be an array") :
      wrapResult (rpcErr .null 1 message) ≠ errorOf 1 "params must be an array" := by
    intro h
    injection h with hfields
    simp only [cons.injEq, Prod.mk.injEq, Value.string.injEq] at hfields
    exact hne hfields.2.1.2
  unfold dispatchMethod
  split
  all_goals first
    | exact ⟨_,rfl,hresult _⟩
    | exact ⟨_,rfl,hmessage (by decide)⟩
    | skip
  refine ⟨_,rfl,hmessage fun h => ?_⟩
  have hchars : "No such method: ".toList ++ method.toList = "params must be an array".toList := by
    rw [← String.toList_append]
    exact congrArg String.toList h
  exact absurd (congrArg head? hchars) (by simp)

def listedTask (status : ℤ) : TaskDto := ⟨"","","","",status,0,0,"","","",false⟩

/-- A host with that many tasks of a status, whose other operations fail. -/
def listingHost (count : ℕ) (status : ℤ) : Host ApiOp ApiOp.Reply ℕ
  | .listTasks, n => (.ok (List.replicate count (listedTask status)), n + 1)
  | op, n => (unavailable op, n + 1)

theorem run_overflows (p : Platform) {method : String} {arr : List Value} (id : Value)
    (h : Overflows method arr) :
    ∃ host : Host ApiOp ApiOp.Reply ℕ, ∀ n,
      (run host (dispatchMethod p method arr id) n).value = none := by
  obtain ⟨hmethod,offset,num,hoffset,hnum,hpos,hnumpos,hlarge⟩ := h
  have hpanics (status : ℤ) (waiting : Bool) (hstatus :
      (bif waiting then isWaitingStatus status else isStoppedStatus status) = true) (n : ℕ) :
      (run (listingHost (offset.toNat + 1) status) (tellWaitingOrStopped p arr id waiting) n).value =
        none := by
    have hrequire : require arr id 0 Value.asI64 = .ok offset ∧
        require arr id 1 Value.asI64 = .ok num := by
      obtain ⟨v,hv,hread⟩ := bind_eq_some_iff.mp hoffset
      obtain ⟨v',hv',hread'⟩ := bind_eq_some_iff.mp hnum
      unfold require
      rw [hv, hv']
      dsimp only
      rw [hread, hread']
      exact ⟨rfl,rfl⟩
    unfold tellWaitingOrStopped
    rw [hrequire.1, hrequire.2]
    dsimp only
    rw [if_neg (by omega)]
    have hpage : paginate ((List.replicate (offset.toNat + 1) (listedTask status)).filter fun t =>
        bif waiting then isWaitingStatus t.status else isStoppedStatus t.status) offset num =
          none := by
      have hall : ∀ t ∈ List.replicate (offset.toNat + 1) (listedTask status),
          (bif waiting then isWaitingStatus t.status else isStoppedStatus t.status) = true := by
        intro t ht
        rw [eq_of_mem_replicate ht]
        exact hstatus
      rw [filter_eq_self.mpr hall]
      unfold paginate
      dsimp only
      rw [length_replicate, if_neg (by omega), if_pos hpos, if_neg (by omega), if_pos hlarge]
    simp only [Program.perform, bind, pure, Program.bind, run, listingHost, speeds]
    rw [hpage]
    rfl
  obtain rfl | rfl := hmethod
  · exact ⟨listingHost (offset.toNat + 1) 0,hpanics 0 true rfl⟩
  · exact ⟨listingHost (offset.toNat + 1) 3,hpanics 3 false rfl⟩

/-- What a program answers does not depend on how often operations have failed. -/
theorem value_failingHost {α : Type} (x : Rpc α) (n m : ℕ) :
    (run failingHost x n).value = (run failingHost x m).value := by
  induction x generalizing n m with
  | ret a => rfl
  | panic => rfl
  | call op next ih => exact ih _ (n + 1) (m + 1)

theorem agrees_of_sameOutcomes {p : Platform} {configToken : String} {headerTokenOk : Bool}
    {id : Value} {calls : List SubCall} (hnamed : ∀ c ∈ calls, c.Named)
    (h : ∀ host : Host ApiOp ApiOp.Reply ℕ,
      SameOutcomes p configToken headerTokenOk host id calls 0) {c : SubCall} (hc : c ∈ calls) :
    Agrees configToken headerTokenOk c := by
  have hvalues (host : Host ApiOp ApiOp.Reply ℕ) : ∃ b n m,
      (run host (innerCall p configToken headerTokenOk c) n).value = some (wrapResult b) ∧
        (run host (topLevelCall p configToken headerTokenOk c) m).value = some b := by
    obtain ⟨answers,heach,hvalue,-,-⟩ := h host
    rw [dispatchRpcCall_envelope, run_map, Outcome.map] at hvalue
    obtain ⟨results,hresults,hanswer⟩ := map_eq_some_iff.mp hvalue
    have hsame : results = answers.map wrapResult := by
      injection hanswer with hfields
      simp only [cons.injEq, Prod.mk.injEq, Value.array.injEq] at hfields
      exact hfields.2.2.1.2
    rw [hsame] at hresults
    exact values_of_mem hresults heach hc
  rw [Agrees, or_iff_not_imp_left, or_iff_not_imp_left]
  intro hrefused hexempt
  have htoken : jsonrpcTokenOk c.paramsValue configToken headerTokenOk ≠ false := fun htoken =>
    hrefused ⟨eq_false_iff.mpr hexempt,htoken⟩
  rw [innerCall_eq p configToken headerTokenOk (hnamed c hc), if_neg hrefused,
    topLevelCall_eq p configToken headerTokenOk (hnamed c hc), if_neg hexempt,
    if_neg htoken] at hvalues
  cases harr : c.paramsValue.asArray with
  | none =>
    rw [harr] at hvalues
    obtain ⟨b,n,m,hinner,htop⟩ := hvalues failingHost
    obtain rfl := some.inj htop
    obtain ⟨answer,hanswer,hne⟩ := answer_without_params p c.methodName
    rw [run_map, Outcome.map, value_failingHost _ n 0] at hinner
    change (run failingHost (dispatchMethod p c.methodName [] .null) 0).value.map wrapResult =
      some (errorOf 1 "params must be an array") at hinner
    rw [hanswer] at hinner
    exact absurd (some.inj hinner) hne
  | some arr =>
    refine ⟨arr,?_,fun hoverflows => ?_⟩
    · cases hparams : c.paramsValue with
      | array values =>
        rw [hparams] at harr
        rw [some.inj harr]
      | _ =>
        rw [hparams] at harr
        cases harr
    · rw [harr] at hvalues
      obtain ⟨host,hnone⟩ := run_overflows p c.id hoverflows
      obtain ⟨b,n,m,-,htop⟩ := hvalues host
      rw [hnone m] at htop
      cases htop

/-- A multicall does and answers what its calls do and answer at the top level, with every
host in every state, exactly if its calls agree. -/
theorem multicall_iff (p : Platform) (configToken : String) (headerTokenOk : Bool) (id : Value)
    {calls : List SubCall} (hnamed : ∀ c ∈ calls, c.Named) :
    (∀ (σ : Type) (host : Host ApiOp ApiOp.Reply σ) (s : σ),
      SameOutcomes p configToken headerTokenOk host id calls s) ↔
        ∀ c ∈ calls, Agrees configToken headerTokenOk c :=
  ⟨fun h _ hc => agrees_of_sameOutcomes hnamed (fun host => h ℕ host 0) hc,
    fun h _ _ s => sameOutcomes_of_agrees hnamed h s⟩

/-- A call with its token, a call without, and one whose method needs none. -/
def agreeingCalls : List SubCall :=
  [⟨.null,"aria2.unpauseAll",some (.array [.string "token:s"])⟩,
    ⟨.null,"aria2.pauseAll",some (.object [])⟩, ⟨.null,"system.listMethods",none⟩]

theorem multicall_iff_sample :
    SameOutcomes samplePlatform "s" false failingHost .null agreeingCalls 0 := by
  have hnamed : ∀ c ∈ agreeingCalls, c.Named := by
    simp [agreeingCalls, SubCall.Named]
  have hagrees : ∀ c ∈ agreeingCalls, Agrees "s" false c := by
    simp only [agreeingCalls, forall_mem_cons]
    refine ⟨.inr (.inr ⟨[.string "token:s"],rfl,?_⟩),.inl ⟨by decide,by decide⟩,
      .inr (.inl (by decide)),fun _ h => nomatch h⟩
    rintro ⟨h | h,-⟩
    · exact absurd h (by decide)
    · exact absurd h (by decide)
  exact (multicall_iff samplePlatform "s" false .null hnamed).mpr hagrees ℕ failingHost 0

/-- Without a configured token, a call whose parameters are an object. -/
theorem object_runs_in_multicall :
    (run failingHost (dispatchRpcCall samplePlatform "" false
      (envelope .null [⟨.null,"aria2.pauseAll",some (.object [])⟩])) 0).trace = [.pauseAll] ∧
    (runEach failingHost (topLevelCall samplePlatform "" false)
      [⟨.null,"aria2.pauseAll",some (.object [])⟩] 0).trace = [] := by
  decide +kernel

end RinaDown.Multicall
