import DistributedLog.Server

/-!
# Requests that the policy does not allow

Whether the policy consents to a request is decided in an interceptor, and
connect asks an interceptor about unary calls only. So a denied unary request
is as good as not made (`step_denied`, and `run_filter` for a whole run),
while a streaming request is served whatever the policy says
(`step_streaming`).
-/

namespace DistributedLog.Server

/-- `Enforce(user, "*", procedure)` says yes. -/
def Authorizer.permits (A : Authorizer) (user : String) (p : Procedure) : Bool :=
  match A.enforce user "*" p.path with
  | .ok allowed => allowed
  | .error _ => false

/-- The event comes from a user whom the policy permits the procedure. -/
def Authorizer.consents (A : Authorizer) (e : Event) : Bool :=
  match authenticate e.peer with
  | .ok user => A.permits user e.action.procedure
  | .error _ => false

/-- A step of a streaming call that gets past `AuthMiddleware`. -/
def Event.streams (e : Event) : Bool := (authenticate e.peer).isOk && !e.action.isUnary

section

variable {σ : Type} {A : Authorizer} {C : CommitLog σ}

/-- What consent means for a run: a denied request leaves the log alone and
gets no response, and without all the denied requests the log would be the
same, and the permitted requests would get the replies that they got. -/
structure NoEffect (A : Authorizer) (C : CommitLog σ) (s : State σ) (es : List Event) : Prop where
  denied : ∀ before e after, es = before ++ e :: after → A.consents e = false →
    (step A C (run A C s before).1 e).1.log = (run A C s before).1.log ∧
      ∀ res, (step A C (run A C s before).1 e).2 ≠ .response res
  log : (run A C s es).1.log = (run A C s (es.filter A.consents)).1.log
  replies : (run A C s es).2.filter (fun x => A.consents x.1) =
    (run A C s (es.filter A.consents)).2

/-! ## Unary requests -/

theorem interceptor_denied {user : String} {m : Message} (h : A.permits user m.procedure = false) :
    ∃ e, ∀ (next : UnaryFunc σ) s, A.interceptor next user m s = (.error e, s) := by
  unfold Authorizer.permits at h
  unfold Authorizer.interceptor
  split at h
  · next allowed henf =>
    subst h
    rw [henf]
    exact ⟨_, fun _ _ => rfl⟩
  · next msg henf =>
    rw [henf]
    exact ⟨_, fun _ _ => rfl⟩

theorem unaryFunc_denied {user : String} {m : Message} (h : A.permits user m.procedure = false) :
    ∃ e, ∀ s, unaryFunc A C user m s = (.error e, s) := by
  obtain ⟨e, he⟩ := interceptor_denied (σ := σ) h
  refine ⟨wrapToConnectError e, fun s => ?_⟩
  rw [unaryFunc, loggingInterceptor, errorInterceptor, he]

theorem step_denied {e : Event} (h : A.consents e = false) (hs : e.streams = false) :
    ∃ reply : Reply, (∀ res, reply ≠ .response res) ∧ ∀ s, step A C s e = (s, reply) := by
  obtain ⟨peer, action⟩ := e
  unfold Authorizer.consents at h
  cases hauth : authenticate peer with
  | error msg =>
      refine ⟨.unauthorized msg, nofun, fun s => ?_⟩
      simp only [step, hauth]
  | ok user =>
      -- past the middleware, only a unary call is not a streaming one
      cases action with
      | unary m =>
          simp only [hauth] at h
          obtain ⟨err, herr⟩ := unaryFunc_denied (C := C) h
          refine ⟨.error err, nofun, fun s => ?_⟩
          simp only [step, hauth, serve, herr]
      | _ => simp [Event.streams, hauth, Action.isUnary, Except.isOk, Except.toBool] at hs

/-! ## Streaming requests -/

/-- The policy is not asked about a streaming call. -/
theorem step_streaming (A A' : Authorizer) (C : CommitLog σ) (s : State σ) {e : Event}
    (h : e.streams = true) : step A C s e = step A' C s e := by
  obtain ⟨peer, action⟩ := e
  unfold step
  cases authenticate peer with
  | error msg => rfl
  | ok user =>
      cases action with
      | unary m => simp [Event.streams, Action.isUnary] at h
      | _ => rfl

theorem consume_served {s : State σ} {user : String} {id : Nat} {off : UInt64} {record : Record}
    {log : σ} (h : C.read s.log off = (.ok record, log)) :
    (step A C (run A C s [⟨.verified user, .consumeStream id off⟩]).1
      ⟨.verified user, .poll id⟩).2 = .response (.consume record) := by
  simp [run, step, authenticate, serve, State.setStream, pollStream, h]

theorem produce_served {s : State σ} {user : String} {id : Nat} {record : Option Record}
    {off : UInt64} {log : σ} (h : C.append s.log record = (.ok off, log)) :
    (step A C (run A C s [⟨.verified user, .produceStream id⟩]).1
      ⟨.verified user, .send id record⟩).2 = .response (.produce off) := by
  simp [run, step, authenticate, serve, State.setStream, sendStream, h]

/-! ## Runs -/

/-- Leaving the denied requests out of a run in which they are all unary. -/
theorem run_filter (C : CommitLog σ) (s : State σ) {es : List Event}
    (h : ∀ e ∈ es, e.streams → A.consents e) :
    (run A C s es).1 = (run A C s (es.filter A.consents)).1 ∧
      (run A C s es).2.filter (fun x => A.consents x.1) =
        (run A C s (es.filter A.consents)).2 := by
  induction es generalizing s with
  | nil => exact ⟨rfl, rfl⟩
  | cons e es ih =>
      rw [List.forall_mem_cons] at h
      obtain ⟨he, hes⟩ := h
      by_cases hc : A.consents e = true
      · obtain ⟨hstate, hreplies⟩ := ih (step A C s e).1 hes
        rw [List.filter_cons_of_pos hc]
        refine ⟨hstate, ?_⟩
        simp only [run]
        rw [List.filter_cons_of_pos (by exact hc), hreplies]
      · rw [Bool.not_eq_true] at hc
        obtain ⟨reply, -, hstep⟩ := step_denied (C := C) hc (by simpa [hc] using he)
        obtain ⟨hstate, hreplies⟩ := ih s hes
        rw [List.filter_cons_of_neg (by simp [hc])]
        simp only [run, hstep]
        rw [List.filter_cons_of_neg (by simp [hc])]
        exact ⟨hstate, hreplies⟩

theorem noEffect_of_streams (C : CommitLog σ) (s : State σ) {es : List Event}
    (h : ∀ e ∈ es, e.streams → A.consents e) : NoEffect A C s es := by
  obtain ⟨hstate, hreplies⟩ := run_filter C s h
  refine ⟨fun before e after hes hc => ?_, by rw [hstate], hreplies⟩
  have he := h e (by rw [hes]; exact List.mem_append_right _ List.mem_cons_self)
  obtain ⟨reply, hreply, hstep⟩ := step_denied (C := C) hc (by simpa [hc] using he)
  rw [hstep]
  exact ⟨rfl, hreply⟩

end

/-! ## The policies -/

/-- A log with one record, and no streaming call yet. -/
def oneRecord : State LogState :=
  let s := (newLog Directory.empty ⟨64, 24, 0⟩).2
  ⟨(s.1.append goEnv s.2 (some ⟨[7], 0, 0, 0⟩)).2, fun _ => none⟩

theorem read_oneRecord :
    ((commitLog goEnv).read oneRecord.log 0).1 = .ok ⟨[7], 0, 0, 0⟩ := by
  decide +kernel

theorem append_oneRecord :
    ((commitLog goEnv).append oneRecord.log (some ⟨[8], 0, 0, 0⟩)).1 = .ok 1 := by
  decide +kernel

/-- **Consent.** A run in which every streaming request is permitted has the
denied requests without effect. A policy makes it so in every run of the
server over a `log.Log` exactly when it permits both streaming procedures to
every user, that is, when there is nothing that it would have to deny. -/
theorem noEffect_iff (A : Authorizer) :
    (∀ (σ : Type) (C : CommitLog σ) (s : State σ) (es : List Event),
      (∀ e ∈ es, e.streams → A.consents e) → NoEffect A C s es) ∧
    ((∀ E s es, NoEffect A (commitLog E) s es) ↔
      ∀ user, A.permits user .consumeStream ∧ A.permits user .produceStream) := by
  refine ⟨fun σ C s es => noEffect_of_streams C s, fun h user => ⟨?_, ?_⟩, fun h E s es => ?_⟩
  · by_contra hden
    rw [Bool.not_eq_true] at hden
    have := (h goEnv oneRecord _).denied [⟨.verified user, .consumeStream 0 0⟩]
      ⟨.verified user, .poll 0⟩ [] rfl hden
    exact this.2 _ (consume_served (Prod.ext read_oneRecord rfl))
  · by_contra hden
    rw [Bool.not_eq_true] at hden
    have := (h goEnv oneRecord _).denied [⟨.verified user, .produceStream 0⟩]
      ⟨.verified user, .send 0 (some ⟨[8], 0, 0, 0⟩)⟩ [] rfl hden
    exact this.2 _ (produce_served (Prod.ext append_oneRecord rfl))
  · refine noEffect_of_streams _ s fun e _ hs => ?_
    obtain ⟨peer, action⟩ := e
    cases peer with
    | verified user =>
        cases action with
        | unary m => simp [Event.streams, Action.isUnary] at hs
        | consumeStream id off => exact (h user).1
        | poll id => exact (h user).1
        | cancel id => exact (h user).1
        | produceStream id => exact (h user).2
        | send id record => exact (h user).2
        | closeSend id => exact (h user).2
        | abort id msg => exact (h user).2
    | _ => simp [Event.streams, authenticate, Except.isOk, Except.toBool] at hs

/-- The policy of `test/acl/policy.csv`. -/
def rootOnly : Authorizer :=
  .new [("root", "*", "/log.v1.LogAPI/Produce"), ("root", "*", "/log.v1.LogAPI/Consume"),
    ("root", "*", "/log.v1.LogAPI/ConsumeStream"), ("root", "*", "/log.v1.LogAPI/ProduceStream")]

theorem noEffect_denied_produce :
    rootOnly.consents ⟨.verified "nobody", .unary (.produce (some ⟨[8], 0, 0, 0⟩))⟩ = false ∧
      NoEffect rootOnly (commitLog goEnv) oneRecord
        [⟨.verified "nobody", .unary (.produce (some ⟨[8], 0, 0, 0⟩))⟩,
          ⟨.verified "root", .consumeStream 0 0⟩, ⟨.verified "root", .poll 0⟩] :=
  ⟨by decide +kernel, (noEffect_iff rootOnly).1 _ _ _ _ (by decide +kernel)⟩

/-- A user without any rights appends a record and reads the log. -/
theorem streams_served_to_nobody :
    let es : List Event := [⟨.verified "nobody", .produceStream 0⟩,
      ⟨.verified "nobody", .send 0 (some ⟨[8], 0, 0, 0⟩)⟩,
      ⟨.verified "nobody", .consumeStream 1 0⟩, ⟨.verified "nobody", .poll 1⟩]
    es.map rootOnly.consents = [false, false, false, false] ∧
      (run rootOnly (commitLog goEnv) oneRecord es).2.map Prod.snd =
        [.none, .response (.produce 1), .none, .response (.consume ⟨[7], 0, 0, 0⟩)] ∧
      (run rootOnly (commitLog goEnv) oneRecord es).1.log.1.highestOffset = .ok 1 := by
  decide +kernel

end DistributedLog.Server
