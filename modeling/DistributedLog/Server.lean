import DistributedLog.Log

/-!
# The RPC server

The `LogAPI` service of `internal/server/log.go` as `Agent.setupServer`
assembles it: `AuthMiddleware` in front of everything, then connect, which
wraps a unary handler in the interceptors and passes a streaming handler
through (each interceptor is a `UnaryInterceptorFunc`), then the handlers,
which call a `CommitLog`.

A streaming call lives through many steps of other calls, so the server is a
state machine. `Action` is what a client, or the scheduler on the handler's
behalf, does next, and `step` what the server does about it if what it sends
goes through. On a stream it may not, when the client has gone away:
`stepSend` is a step in which the `Send` of a streaming handler, if it comes
to one, fails.
-/

namespace DistributedLog.Server

/-- The interface `server.CommitLog`, over whatever state is behind it. -/
structure CommitLog (σ : Type) where
  append : σ → Option Record → Result UInt64 × σ
  read : σ → UInt64 → Result Record × σ

/-- A `log.Log` as a `CommitLog`. -/
def commitLog (E : Env) : CommitLog LogState where
  append s record := s.1.append E s.2 record
  read s off := s.1.read E s.2 off

inductive Procedure where
  | produce
  | consume
  | consumeStream
  | produceStream
deriving DecidableEq, Repr

/-- `req.Spec().Procedure`. -/
def Procedure.path : Procedure → String
  | .produce => "/log.v1.LogAPI/Produce"
  | .consume => "/log.v1.LogAPI/Consume"
  | .consumeStream => "/log.v1.LogAPI/ConsumeStream"
  | .produceStream => "/log.v1.LogAPI/ProduceStream"

/-! ## Errors -/

/-- The codes of connect that the server uses. -/
inductive Code where
  | unknown
  | notFound
  | permissionDenied
  | internal
deriving DecidableEq, Repr

inductive RpcError where
  | commit (e : Err) -- what the commit log returned
  | outOfRange (off : UInt64) -- a *log.ErrOffsetOutOfRange
  | text (msg : String)
  | connect (code : Code) (cause : RpcError) (details : List String)
  | panic -- the handler did not return
deriving DecidableEq, Repr

/-- `errors.As` with a target of type `*log.ErrOffsetOutOfRange`. An
`ErrOffsetOutOfRange` that is not a pointer has another type. -/
def RpcError.asOutOfRange : RpcError → Option UInt64
  | .outOfRange off => some off
  | .connect _ cause _ => cause.asOutOfRange
  | _ => none

/-- `WrapToConnectError`. -/
def wrapToConnectError (err : RpcError) : RpcError :=
  match err.asOutOfRange with
  | some off =>
      .connect .notFound (.outOfRange off)
        ["The requested offset is outside the log's range: " ++ toString off]
  | none => err

def RpcError.ofFail : Fail → RpcError
  | .err e => .commit e
  | .panic => .panic

/-- What a streaming handler makes of an error of `Consume` or `Produce`. -/
def streamError : Fail → RpcError
  | .err e => .connect .internal (.commit e) []
  | .panic => .panic

/-! ## Unary calls -/

inductive Message where
  | produce (record : Option Record)
  | consume (offset : UInt64)
deriving DecidableEq, Repr

def Message.procedure : Message → Procedure
  | .produce _ => .produce
  | .consume _ => .consume

inductive Response where
  | produce (offset : UInt64)
  | consume (record : Record)
deriving DecidableEq, Repr

/-- `connect.UnaryFunc`; the user is the one in the context. -/
abbrev UnaryFunc (σ : Type) := String → Message → σ → Except RpcError Response × σ

section

variable {σ : Type}

/-- The handlers `Produce` and `Consume`. -/
def handler (C : CommitLog σ) : UnaryFunc σ
  | _, .produce record, s =>
      match C.append s record with
      | (.error e, s) => (.error (.ofFail e), s)
      | (.ok off, s) => (.ok (.produce off), s)
  | _, .consume off, s =>
      match C.read s off with
      | (.error e, s) => (.error (.ofFail e), s)
      | (.ok record, s) => (.ok (.consume record), s)

/-- The interceptor of `NewErrorInterceptor`. -/
def errorInterceptor (next : UnaryFunc σ) : UnaryFunc σ := fun user m s =>
  match next user m s with
  | (.error e, s) => (.error (wrapToConnectError e), s)
  | (.ok res, s) => (.ok res, s)

/-- `LoggingInterceptor`: apart from the line that it logs, it does what the
error interceptor does. -/
def loggingInterceptor : UnaryFunc σ → UnaryFunc σ := errorInterceptor

/-- `auth.Authorizer`: what the enforcer answers for a subject, an object and
an action. -/
structure Authorizer where
  enforce : String → String → String → Except String Bool

/-- The enforcer of `test/acl/model.conf`: a request is allowed when the policy
has a line for exactly its subject, object and action. -/
def Authorizer.new (policy : List (String × String × String)) : Authorizer where
  enforce sub obj act := .ok ((sub, obj, act) ∈ policy)

/-- `Authorizer.Interceptor`. -/
def Authorizer.interceptor (A : Authorizer) (next : UnaryFunc σ) : UnaryFunc σ := fun user m s =>
  match A.enforce user "*" m.procedure.path with
  | .error msg => (.error (.text msg), s)
  | .ok false => (.error (.connect .permissionDenied (.text "permission denied") []), s)
  | .ok true => next user m s

/-- The chain that `setupServer` and `NewLogAPIHandler` build: the interceptor
that was given first is the outermost. -/
def unaryFunc (A : Authorizer) (C : CommitLog σ) : UnaryFunc σ :=
  loggingInterceptor (A.interceptor (errorInterceptor (handler C)))

/-! ## The server -/

/-- The connection that a request came over. -/
inductive Peer where
  | plain -- no TLS
  | unverified -- TLS with no verified chain
  | verified (commonName : String)
deriving DecidableEq, Repr

/-- `authenticate` of `internal/http/auth.go`. -/
def authenticate : Peer → Except String String
  | .plain => .error "no TLS"
  | .unverified => .error "no verified chains"
  | .verified name => .ok name

inductive Action where
  | unary (m : Message)
  /-- The call `id` of `ConsumeStream` begins. -/
  | consumeStream (id : Nat) (offset : UInt64)
  /-- It goes round its loop once. -/
  | poll (id : Nat)
  /-- It finds that its context is done. -/
  | cancel (id : Nat)
  /-- The call `id` of `ProduceStream` begins. -/
  | produceStream (id : Nat)
  /-- It receives a message. -/
  | send (id : Nat) (record : Option Record)
  /-- It receives `io.EOF`. -/
  | closeSend (id : Nat)
  /-- It receives an error. -/
  | abort (id : Nat) (msg : String)
deriving DecidableEq, Repr

/-- The procedure that an action is part of a call of. -/
def Action.procedure : Action → Procedure
  | .unary m => m.procedure
  | .consumeStream _ _ | .poll _ | .cancel _ => .consumeStream
  | .produceStream _ | .send _ _ | .closeSend _ | .abort _ _ => .produceStream

def Action.isUnary : Action → Bool
  | .unary _ => true
  | _ => false

structure Event where
  peer : Peer
  action : Action
deriving DecidableEq, Repr

inductive Reply where
  | response (res : Response)
  | unsent (res : Response) (msg : String) -- `Send` has returned an error
  | error (e : RpcError)
  | unauthorized (msg : String) -- HTTP status 401
  | none
deriving DecidableEq, Repr

/-- What a streaming handler that has not returned keeps between two rounds
of its loop: `ConsumeStream` counts `req.Msg.Offset` up. -/
inductive Stream where
  | consuming (offset : UInt64)
  | producing
deriving DecidableEq, Repr

/-- The commit log and the running streaming handlers, by user and call. -/
structure State (σ : Type) where
  log : σ
  streams : String × Nat → Option Stream

def State.setStream (s : State σ) (call : String × Nat) (st : Option Stream) : State σ :=
  { s with streams := Function.update s.streams call st }

/-- A round of the loop of `ConsumeStream`. -/
def pollStream (C : CommitLog σ) (s : State σ) (call : String × Nat) : State σ × Reply :=
  match s.streams call with
  | some (.consuming off) =>
      match C.read s.log off with
      | (.ok record, log) =>
          ({ s with log }.setStream call (some (.consuming (off + 1))), .response (.consume record))
      | (.error (.err (.offsetOutOfRange _)), log) => ({ s with log }, .none)
      | (.error e, log) => ({ s with log }.setStream call none, .error (streamError e))
  | _ => (s, .none)

/-- A round of the loop of `ProduceStream` that has received a message. -/
def sendStream (C : CommitLog σ) (s : State σ) (call : String × Nat) (record : Option Record) :
    State σ × Reply :=
  match s.streams call with
  | some .producing =>
      match C.append s.log record with
      | (.ok off, log) => ({ s with log }, .response (.produce off))
      | (.error e, log) => ({ s with log }.setStream call none, .error (streamError e))
  | _ => (s, .none)

/-- Connect's part: only a unary call goes through the interceptors. -/
def serve (A : Authorizer) (C : CommitLog σ) (s : State σ) (user : String) :
    Action → State σ × Reply
  | .unary m =>
      match unaryFunc A C user m s.log with
      | (.ok res, log) => ({ s with log }, .response res)
      | (.error e, log) => ({ s with log }, .error e)
  | .consumeStream id off => (s.setStream (user, id) (some (.consuming off)), .none)
  | .poll id => pollStream C s (user, id)
  | .cancel id =>
      match s.streams (user, id) with
      | some (.consuming _) => (s.setStream (user, id) none, .none)
      | _ => (s, .none)
  | .produceStream id => (s.setStream (user, id) (some .producing), .none)
  | .send id record => sendStream C s (user, id) record
  | .closeSend id =>
      match s.streams (user, id) with
      | some .producing => (s.setStream (user, id) none, .none)
      | _ => (s, .none)
  | .abort id msg =>
      match s.streams (user, id) with
      | some .producing =>
          (s.setStream (user, id) none, .error (.connect .unknown (.text msg) []))
      | _ => (s, .none)

/-- `AuthMiddleware` in front of the mux. -/
def step (A : Authorizer) (C : CommitLog σ) (s : State σ) (e : Event) : State σ × Reply :=
  match authenticate e.peer with
  | .error msg => (s, .unauthorized msg)
  | .ok user => serve A C s user e.action

/-- The step has come to a `Send` of a streaming handler, if it did, and that
fails: the record has been read or appended, and the handler returns. -/
def failSend (e : Event) (msg : String) (next : State σ × Reply) : State σ × Reply :=
  match authenticate e.peer, e.action, next.2 with
  | .ok user, .poll id, .response res | .ok user, .send id _, .response res =>
      (next.1.setStream (user, id) none, .unsent res msg)
  | _, _, _ => next

/-- A step, with the error of its `Send` in it. -/
def stepSend (A : Authorizer) (C : CommitLog σ) (s : State σ) (e : Event × Option String) :
    State σ × Reply :=
  match e.2 with
  | none => step A C s e.1
  | some msg => failSend e.1 msg (step A C s e.1)

/-- What a streaming handler returns when `Send` fails. -/
def sendError (msg : String) : RpcError := .connect .internal (.text msg) []

/-- The error that the handler has returned. -/
def Reply.error? : Reply → Option RpcError
  | .error e => some e
  | .unsent _ msg => some (sendError msg)
  | _ => Option.none

/-- The events one after the other, with what the server replied to each. -/
def run (A : Authorizer) (C : CommitLog σ) (s : State σ) :
    List Event → State σ × List (Event × Reply)
  | [] => (s, [])
  | e :: es =>
      let next := step A C s e
      let rest := run A C next.1 es
      (rest.1, (e, next.2) :: rest.2)

end

end DistributedLog.Server
