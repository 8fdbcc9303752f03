import RinaDown.JsonRpc

/-!
# Authorisation of JSON-RPC calls

A body holds calls, at its top level and inside of its multicalls. Where a token is configured
and no header carries it, the calls whose parameters begin with the token are answered as if
none was configured, and each of the others is answered by a refusal, or by the list of a
method that needs no token, without an operation of the host.
-/

namespace RinaDown.JsonRpc

open Aria2 Programs List

def IsMulticall (call : Value) : Prop := methodOf "method" call = "system.multicall"

instance (call : Value) : Decidable (IsMulticall call) := inferInstanceAs (Decidable (_ = _))

/-- A call that may call the host: at the top level of a body, or in a multicall. -/
inductive RpcCall where
  | topLevel (call : Value) (h : ¬IsMulticall call)
  | sub (call : Value)

def RpcCall.params : RpcCall → Value
  | .topLevel call _ => paramsOf call
  | .sub call => paramsOf call

def multicallParams (call : Value) : List Value :=
  stripTokenPrefix ((paramsOf call).asArray.getD [])

def callsIn (call : Value) : List RpcCall :=
  if h : IsMulticall call then
    match require (multicallParams call) (idOf call) 0 Value.asArray with
    | .error _ => []
    | .ok calls => calls.map .sub
  else [.topLevel call h]

def callsOf (p : Platform) (body : List UInt8) : List RpcCall :=
  match p.fromSlice body with
  | .ok (.array calls) => calls.flatMap callsIn
  | .ok (.object fields) => callsIn (.object fields)
  | _ => []

/-- The answer to a call of the top level, from the answers of the calls that it stands for. -/
def replyTo (call : Value) (answers : List Value) : Value :=
  if IsMulticall call then
    match require (multicallParams call) (idOf call) 0 Value.asArray with
    | .error resp => resp
    | .ok _ => rpcOk (idOf call) (.array answers)
  else answers.headD .null

def repliesTo : List Value → List Value → List Value
  | [], _ => []
  | call :: calls, answers =>
      replyTo call (answers.take (callsIn call).length) ::
        repliesTo calls (answers.drop (callsIn call).length)

def respond (p : Platform) (body : List UInt8) (answers : List Value) : Value :=
  match p.fromSlice body with
  | .error e => rpcErr .null (-32700) s!"parse error: {e}"
  | .ok (.array calls) => .array (repliesTo calls answers)
  | .ok (.object fields) => replyTo (.object fields) answers
  | .ok _ => rpcErr .null (-32600) "invalid request"

variable (p : Platform) (configToken : String) (headerTokenOk : Bool)

def answerWith : RpcCall → Rpc Value
  | .topLevel call _ => dispatchRpcCall p configToken headerTokenOk call
  | .sub call => subCall p configToken headerTokenOk call

def answer : RpcCall → Rpc Value := answerWith p "" false

def exemptAnswer (method : String) (id : Value) : Value :=
  rpcOk id (names (if method = "system.listMethods" then methodNames else notificationNames))

/-- The answer to a call that does not carry the token. -/
def refusal : RpcCall → Value
  | .topLevel call _ =>
      let method := methodOf "method" call
      if isExempt method then exemptAnswer method (idOf call)
      else rpcErr (idOf call) 1 "Unauthorized"
  | .sub call =>
      let method := methodOf "methodName" call
      if method.isEmpty then errorOf 1 "Missing methodName."
      else if method = "system.multicall" then
        errorOf 1 "Recursive system.multicall forbidden."
      else if isExempt method then wrapResult (exemptAnswer method .null)
      else errorOf 1 "Unauthorized"

/-- The parameters of a call are a list that begins with the token. -/
def carriesToken (call : RpcCall) : Bool :=
  match call.params with
  | .array (.string s :: _) => s = "token:" ++ configToken
  | _ => false

/-! ## The token -/

theorem foldl_or_eq_zero (l : List (UInt8 × UInt8)) (acc : UInt8) :
    l.foldl (fun acc e => acc ||| (e.1 ^^^ e.2)) acc = 0 ↔ acc = 0 ∧ ∀ e ∈ l, e.1 = e.2 := by
  induction l generalizing acc with
  | nil => simp
  | cons e l ih =>
      rw [foldl_cons, ih, UInt8.or_eq_zero_iff, UInt8.xor_eq_zero_iff, forall_mem_cons,
        and_assoc]

theorem eq_of_zip {l l' : List UInt8} (hlength : l.length = l'.length)
    (h : ∀ e ∈ l.zip l', e.1 = e.2) : l = l' := by
  apply ext_getElem hlength
  intro i hi hi'
  apply h (l[i], l'[i])
  rw [← getElem_zip (h := by rw [length_zip]; omega)]
  exact getElem_mem _

theorem constantTimeEq_eq (a b : String) : constantTimeEq a b = decide (a = b) := by
  rw [constantTimeEq]
  by_cases hsize : a.utf8ByteSize = b.utf8ByteSize
  · have hlength : a.toUTF8.data.toList.length = b.toUTF8.data.toList.length := hsize
    rw [if_neg (not_not.mpr hsize)]
    apply decide_eq_decide.mpr
    rw [foldl_or_eq_zero]
    constructor
    · rintro ⟨-,hzip⟩
      apply String.toByteArray_inj.mp
      apply ByteArray.ext
      apply Array.toList_inj.mp
      exact eq_of_zip hlength hzip
    · rintro rfl
      refine ⟨rfl,fun e he => ?_⟩
      obtain ⟨i,hi,rfl⟩ := mem_iff_getElem.mp he
      rw [getElem_zip]
  · rw [if_pos hsize]
    exact (decide_eq_false fun h => hsize (congrArg _ h)).symm

theorem strip_eq_some {start s t : String} : strip start s = some t ↔ s = start ++ t := by
  rw [strip]
  constructor
  · intro h
    split_ifs at h with hstart
    obtain ⟨rest,hrest⟩ := isPrefixOf_iff_prefix.mp hstart
    apply String.toList_inj.mp
    rw [← Option.some.inj h, String.toList_append, String.toList_ofList, ← hrest,
      ← String.length_toList, drop_left]
  · rintro rfl
    rw [String.toList_append, if_pos (List.isPrefixOf_iff_prefix.mpr (prefix_append _ _)),
      ← String.length_toList, drop_left, String.ofList_toList]

variable {configToken}

theorem strip_token (s : String) :
    ((strip "token:" s).map (constantTimeEq · configToken)).getD false =
      decide (s = "token:" ++ configToken) := by
  cases hstrip : strip "token:" s with
  | none =>
      refine (decide_eq_false fun h => ?_).symm
      rw [strip_eq_some.mpr h] at hstrip
      exact Option.some_ne_none _ hstrip
  | some t =>
      rw [strip_eq_some.mp hstrip, Option.map_some, Option.getD_some, constantTimeEq_eq]
      apply decide_eq_decide.mpr
      exact (String.append_right_inj "token:").symm

theorem jsonrpcTokenOk_eq (htoken : configToken ≠ "") (call : RpcCall) :
    jsonrpcTokenOk call.params configToken false = carriesToken configToken call := by
  have hempty : (configToken.isEmpty || false) = false := by simpa using htoken
  rw [jsonrpcTokenOk, hempty, carriesToken]
  match call.params with
  | .array (.string s :: _) => exact strip_token s
  | .array [] | .array (.null :: _) | .array (.bool _ :: _) | .array (.number _ :: _)
  | .array (.array _ :: _) | .array (.object _ :: _) | .null | .bool _ | .number _ | .string _
  | .object _ => rfl

/-! ## One call -/

theorem dispatchMethod_exempt {method : String} (h : isExempt method = true)
    (arr : List Value) (id : Value) :
    dispatchMethod p method arr id = pure (exemptAnswer method id) := by
  rcases (Bool.or_eq_true _ _).mp h with h | h
  · rw [of_decide_eq_true h]
    rfl
  · rw [of_decide_eq_true h]
    rfl

theorem dispatchRpcCall_topLevel {call : Value} (h : ¬IsMulticall call) :
    dispatchRpcCall p configToken headerTokenOk call =
      if isExempt (methodOf "method" call) then
        pure (exemptAnswer (methodOf "method" call) (idOf call))
      else if !jsonrpcTokenOk (paramsOf call) configToken headerTokenOk then
        pure (rpcErr (idOf call) 1 "Unauthorized")
      else
        match (paramsOf call).asArray with
        | some a => dispatchMethod p (methodOf "method" call) (stripTokenPrefix a) (idOf call)
        | none => pure (rpcErr (idOf call) 1 "params must be an array") := by
  rw [dispatchRpcCall]
  by_cases hexempt : isExempt (methodOf "method" call) = true
  · simp only [hexempt, if_pos, dispatchMethod_exempt]
  · simp only [hexempt, Bool.false_eq_true, if_false]
    exact if_neg h

theorem answerWith_carries (htoken : configToken ≠ "") {call : RpcCall}
    (h : carriesToken configToken call = true) :
    answerWith p configToken false call = answer p call := by
  have hok := (jsonrpcTokenOk_eq htoken call).trans h
  cases call with
  | topLevel call hcall =>
      rw [RpcCall.params] at hok
      rw [answer, answerWith, answerWith, dispatchRpcCall_topLevel p false hcall,
        dispatchRpcCall_topLevel p false hcall, hok]
      rfl
  | sub call =>
      rw [RpcCall.params] at hok
      rw [answer, answerWith, answerWith, subCall, subCall, hok]
      rfl

theorem answerWith_refuses (htoken : configToken ≠ "") {call : RpcCall}
    (h : carriesToken configToken call = false) :
    answerWith p configToken false call = pure (refusal call) := by
  have hok := (jsonrpcTokenOk_eq htoken call).trans h
  cases call with
  | topLevel call hcall =>
      rw [RpcCall.params] at hok
      rw [answerWith, dispatchRpcCall_topLevel p false hcall, hok, refusal]
      cases isExempt (methodOf "method" call) <;> rfl
  | sub call =>
      rw [RpcCall.params] at hok
      rw [answerWith, subCall, hok, refusal]
      cases hexempt : isExempt (methodOf "methodName" call) with
      | true =>
          simp only [dispatchMethod_exempt p hexempt, pure_bind, Bool.not_true, Bool.false_and,
            Bool.false_eq_true, if_true, if_false]
          split_ifs <;> rfl
      | false =>
          simp only [Bool.not_false, Bool.and_self, Bool.false_eq_true, if_true, if_false]
          split_ifs <;> rfl

/-! ## A body -/

theorem dispatchRpcCall_multicall {call : Value} (h : IsMulticall call) :
    dispatchRpcCall p configToken headerTokenOk call =
      systemMulticall p (idOf call) configToken headerTokenOk (multicallParams call) := by
  have hexempt : isExempt (methodOf "method" call) = false := by
    rw [show methodOf "method" call = "system.multicall" from h]
    rfl
  rw [dispatchRpcCall, hexempt, if_neg Bool.false_ne_true]
  exact if_pos h

/-- The answer to a call comes from the answers of the calls that it stands for. -/
theorem dispatchRpcCall_eq (call : Value) :
    dispatchRpcCall p configToken headerTokenOk call =
      replyTo call <$> (callsIn call).mapM (answerWith p configToken headerTokenOk) := by
  rw [← bind_pure_comp]
  by_cases h : IsMulticall call
  · rw [dispatchRpcCall_multicall p headerTokenOk h, systemMulticall, callsIn, dif_pos h]
    simp only [replyTo, if_pos h]
    cases require (multicallParams call) (idOf call) 0 Value.asArray with
    | error resp => rfl
    | ok calls =>
        have hsub : calls.mapM (subCall p configToken headerTokenOk) =
            (calls.map RpcCall.sub).mapM (answerWith p configToken headerTokenOk) := by
          rw [mapM_map]
          rfl
        exact congrArg (· >>= fun results => pure (rpcOk (idOf call) (.array results))) hsub
  · rw [callsIn, dif_neg h, mapM_cons, mapM_nil]
    simp only [replyTo, if_neg h, pure_bind, bind_assoc, headD_cons, bind_pure]
    rfl

theorem mapM_dispatchRpcCall (calls : List Value) :
    calls.mapM (dispatchRpcCall p configToken headerTokenOk) =
      repliesTo calls <$>
        (calls.flatMap callsIn).mapM (answerWith p configToken headerTokenOk) := by
  induction calls with
  | nil => rfl
  | cons call calls ih =>
      rw [mapM_cons, flatMap_cons, mapM_append, ih, dispatchRpcCall_eq]
      simp only [bind_map_left, map_bind, map_pure]
      apply bind_mapM_congr
      intro ys hlength
      congr 1
      funext zs
      rw [repliesTo, ← hlength, take_left, drop_left]

theorem handleJsonrpc_eq (body : List UInt8) :
    handleJsonrpc p configToken headerTokenOk body =
      respond p body <$> (callsOf p body).mapM (answerWith p configToken headerTokenOk) := by
  rw [handleJsonrpc, callsOf, ← bind_pure_comp]
  unfold respond
  match p.fromSlice body with
  | .error e => rfl
  | .ok (.array calls) =>
      simp only [mapM_dispatchRpcCall, bind_map_left]
  | .ok (.object fields) =>
      simp only [dispatchRpcCall_eq, bind_pure_comp]
  | .ok .null | .ok (.bool _) | .ok (.number _) | .ok (.string _) => rfl

/-! ## Only calls with the token reach the host -/

variable {σ : Type} (host : Host ApiOp ApiOp.Reply σ)

/-- The answers of a body in which the calls without the token are refused. -/
def answersOf (configToken : String) (calls : List RpcCall) (answers : List Value) : List Value :=
  fill (carriesToken configToken) refusal calls answers

/-- A run of the calls of a body that carry the token. -/
def runAuthorised (configToken : String) (body : List UInt8) (s : σ) :
    Outcome ApiOp σ (List Value) :=
  run host (((callsOf p body).filter (carriesToken configToken)).mapM (answer p)) s

/-- Where a token is configured and no header carries it, a run of the endpoint is a run of the
calls that carry the token, one after the other: it does and answers what they do and answer,
and the other calls are refused. -/
theorem run_handleJsonrpc (htoken : configToken ≠ "") (body : List UInt8) (s : σ) :
    (run host (handleJsonrpc p configToken false body) s).state =
        (runAuthorised p host configToken body s).state ∧
      (run host (handleJsonrpc p configToken false body) s).trace =
        (runAuthorised p host configToken body s).trace ∧
      (run host (handleJsonrpc p configToken false body) s).value =
        (runAuthorised p host configToken body s).value.map (fun answers =>
          respond p body (answersOf configToken (callsOf p body) answers)) ∧
      ∀ op ∈ (run host (handleJsonrpc p configToken false body) s).trace,
        ∃ call ∈ callsOf p body, carriesToken configToken call = true ∧
          ∃ s', op ∈ (run host (answer p call) s').trace := by
  have hrun : run host (handleJsonrpc p configToken false body) s =
      ((runAuthorised p host configToken body s).map (fill (carriesToken configToken) refusal
        (callsOf p body))).map (respond p body) := by
    rw [runAuthorised, ← run_map, ← run_map, ← mapM_eq_fill (carriesToken configToken) refusal
      (answerWith p configToken false) (answer p)
      (fun call h => answerWith_carries p htoken h) (fun call h => answerWith_refuses p htoken h),
      ← handleJsonrpc_eq]
  refine ⟨congrArg Outcome.state hrun,congrArg Outcome.trace hrun,?_,?_⟩
  · rw [hrun]
    exact Option.map_map _ _ _
  · intro op hop
    rw [hrun] at hop
    obtain ⟨call,hcall,s',hop⟩ := mem_trace_mapM host hop
    obtain ⟨hcall,hcarries⟩ := mem_filter.mp hcall
    exact ⟨call,hcall,hcarries,s',hop⟩

/-- A batch of a call without parameters and of a multicall, in which one call of three carries
the token. -/
def sampleBody : List UInt8 :=
  ("[\x7b\"method\":\"aria2.pauseAll\"\x7d,\x7b\"method\":\"system.multicall\",\"params\":[[" ++
    "\x7b\"methodName\":\"aria2.unpauseAll\",\"params\":[\"token:s\"]\x7d," ++
    "\x7b\"methodName\":\"aria2.pauseAll\",\"params\":\"token:s\"\x7d]]\x7d]").toUTF8.data.toList

def sampleCalls : List Value :=
  [.object [("method", .string "aria2.pauseAll")],
    .object [("method", .string "system.multicall"), ("params", .array [.array [
      .object [("methodName", .string "aria2.unpauseAll"),
        ("params", .array [.string "token:s"])],
      .object [("methodName", .string "aria2.pauseAll"), ("params", .string "token:s")]]])]]

def samplePlatform : Platform where
  fromSlice body := if body = sampleBody then .ok (.array sampleCalls) else .error "expected value"
  joinPath dir name := dir ++ "/" ++ name
  sessionId := "0000000000000000000000000000000000000000"

def unavailable (op : ApiOp) : op.Reply := by
  cases op <;> exact .error .unavailable

/-- A host whose operations all fail, and that counts them. -/
def failingHost : Host ApiOp ApiOp.Reply ℕ := fun op n => (unavailable op, n + 1)

theorem run_handleJsonrpc_sample :
    "s" ≠ "" ∧
      (run failingHost (handleJsonrpc samplePlatform "s" false sampleBody) 0).state = 1 ∧
      (run failingHost (handleJsonrpc samplePlatform "s" false sampleBody) 0).trace =
        [.continueAll] := by
  have htoken : "s" ≠ "" := by decide
  have hrun := run_handleJsonrpc samplePlatform failingHost htoken sampleBody 0
  exact ⟨htoken,hrun.1.trans (by decide +kernel),hrun.2.1.trans (by decide +kernel)⟩

end RinaDown.JsonRpc
