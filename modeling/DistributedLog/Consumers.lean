import DistributedLog.Producers
import DistributedLog.Wrapping

/-!
# Consumers

A call of `ConsumeStream` reads one offset after the other, and asks again
for one that is not there yet. Producers append in between, and its client
may go away, so that `Send` fails (`stepSend`). What a client has been sent
is in the replies (`consumed`); `Following` says that it is the records
acknowledged from the start offset on, and where the loop is.
-/

namespace DistributedLog.Server

section

variable {σ : Type} {A : Authorizer} {C : CommitLog σ} {s : State σ}

/-! ## Sends that fail -/

/-- Only a step that has something to send is affected. -/
theorem stepSend_quiet {e : Event × Option String}
    (h : ∀ res, (step A C s e.1).2 ≠ .response res) : stepSend A C s e = step A C s e.1 := by
  unfold stepSend failSend
  split
  · rfl
  · split
    · next hres => exact absurd hres (h _)
    · next hres => exact absurd hres (h _)
    · rfl

/-- And it is affected only if it is a round of one of the loops. -/
theorem stepSend_of_action {e : Event × Option String} (hpoll : ∀ id, e.1.action ≠ .poll id)
    (hsend : ∀ id record, e.1.action ≠ .send id record) : stepSend A C s e = step A C s e.1 := by
  unfold stepSend failSend
  split
  · rfl
  · split
    · next hact _ => exact absurd hact (hpoll _)
    · next hact _ => exact absurd hact (hsend _ _)
    · rfl

/-- The stream of a call is that of the step, or it has ended. -/
theorem stepSend_streams (e : Event × Option String) :
    (stepSend A C s e).1.streams = (step A C s e.1).1.streams ∨
      ∃ call, (stepSend A C s e).1.streams =
        ((step A C s e.1).1.setStream call none).streams := by
  unfold stepSend failSend
  split
  · exact .inl rfl
  · split
    · exact .inr ⟨_, rfl⟩
    · exact .inr ⟨_, rfl⟩
    · exact .inl rfl

/-! ## What a client has been sent -/

structure Consumed where
  start : UInt64
  sent : List Record
deriving DecidableEq, Repr

def Consumed.receive (q : Consumed) (r : Record) : Consumed := { q with sent := q.sent ++ [r] }

/-- The call begins, or is sent a record. -/
def hear (call : String × Nat) (h : Option Consumed) (x : Event × Reply) : Option Consumed :=
  match authenticate x.1.peer, x.1.action, x.2 with
  | .ok user, .consumeStream id off, _ => if (user, id) = call then some ⟨off, []⟩ else h
  | .ok user, .poll id, .response (.consume r) =>
      if (user, id) = call then h.map (·.receive r) else h
  | _, _, _ => h

/-- What the last call of `ConsumeStream` under this name has been sent. -/
def consumed (call : String × Nat) (xs : List (Event × Reply)) : Option Consumed :=
  xs.foldl (hear call) none

theorem consumed_concat (call : String × Nat) (xs : List (Event × Reply)) (x : Event × Reply) :
    consumed call (xs ++ [x]) = hear call (consumed call xs) x := by
  rw [consumed, List.foldl_concat]
  rfl

@[simp] theorem State.streams_setStream_self (s : State σ) (call : String × Nat)
    (st : Option Stream) : (s.setStream call st).streams call = st :=
  Function.update_self ..

theorem State.streams_setStream_of_ne (s : State σ) {call call' : String × Nat}
    (h : call ≠ call') (st : Option Stream) :
    (s.setStream call' st).streams call = s.streams call :=
  Function.update_of_ne h ..

/-- A call that is not set to consume does so only if it did. -/
theorem consuming_of_setStream {s : State σ} {call call' : String × Nat} {st : Option Stream}
    (hst : ∀ off, st ≠ some (.consuming off)) {off : UInt64}
    (h : (s.setStream call' st).streams call = some (.consuming off)) :
    s.streams call = some (.consuming off) := by
  by_cases hcall : call = call'
  · rw [hcall, State.streams_setStream_self] at h
    exact absurd h (hst off)
  · rw [State.streams_setStream_of_ne s hcall] at h
    exact h

theorem consuming_of_stepSend {e : Event × Option String} {call : String × Nat} {off : UInt64}
    (h : (stepSend A C s e).1.streams call = some (.consuming off)) :
    (step A C s e.1).1.streams call = some (.consuming off) := by
  rcases stepSend_streams (A := A) (C := C) (s := s) e with heq | ⟨call', heq⟩
  · rw [heq] at h
    exact h
  · rw [heq] at h
    exact consuming_of_setStream (by simp) h

/-- Apart from its begin and its rounds, a step can only end a call. -/
theorem consuming_of_serve {user : String} {a : Action} (hpoll : ∀ id, a ≠ .poll id)
    (hbegin : ∀ id off, a ≠ .consumeStream id off) {call : String × Nat} {off : UInt64}
    (h : (serve A C s user a).1.streams call = some (.consuming off)) :
    s.streams call = some (.consuming off) := by
  cases a with
  | poll id => exact absurd rfl (hpoll id)
  | consumeStream id off => exact absurd rfl (hbegin id off)
  | unary m =>
      simp only [serve] at h
      split at h <;> exact h
  | produceStream id => exact consuming_of_setStream (by simp) h
  | send id record =>
      simp only [serve, sendStream] at h
      split at h
      · split at h
        · exact h
        · exact consuming_of_setStream (by simp) h
      · exact h
  | _ =>
      simp only [serve] at h
      split at h
      · exact consuming_of_setStream (by simp) h
      · exact h

/-- A round of the loop that reads nothing: it goes on if the offset is out of
range, and else the call is over. -/
theorem pollStream_error {call : String × Nat} {off : UInt64} {err : Fail} {log : σ}
    (hst : s.streams call = some (.consuming off)) (hread : C.read s.log off = (.error err, log)) :
    pollStream C s call = ({ s with log }, .none) ∨
    (pollStream C s call = ({ s with log }.setStream call none, .error (streamError err)) ∧
      ∀ off', err ≠ .err (.offsetOutOfRange off')) := by
  by_cases hrange : ∃ off', err = .err (.offsetOutOfRange off')
  · obtain ⟨off', rfl⟩ := hrange
    exact .inl (by simp only [pollStream, hst, hread])
  · refine .inr ⟨?_, fun off' herr => hrange ⟨off', herr⟩⟩
    simp only [pollStream, hst, hread]
    split
    · next heq => cases heq
    · next heq =>
      cases heq
      exact absurd ⟨_, rfl⟩ hrange
    · next heq =>
      cases heq
      rfl

/-- Why a round of the loop of `ConsumeStream` may return an error: `Send`
has failed, or the read has, and not because of the range. -/
def PollError (C : CommitLog σ) (s : State σ) (failure : Option String) (err : RpcError) : Prop :=
  (∃ msg, failure = some msg ∧ err = sendError msg) ∨
    ∃ off f, (C.read s.log off).1 = .error f ∧ ∀ off', f ≠ .err (.offsetOutOfRange off')

/-- A round of the loop: nothing is sent, or the record at the offset is. -/
theorem stepSend_poll {user : String} {peer : Peer} (hauth : authenticate peer = .ok user)
    (id : Nat) (failure : Option String) :
    ((∀ res, (stepSend A C s (⟨peer, .poll id⟩, failure)).2 ≠ .response res) ∧
      (∀ err, (stepSend A C s (⟨peer, .poll id⟩, failure)).2.error? = some err →
        PollError C s failure err) ∧
      ∀ call off, (stepSend A C s (⟨peer, .poll id⟩, failure)).1.streams call =
        some (.consuming off) → s.streams call = some (.consuming off)) ∨
    ∃ off r log, s.streams (user, id) = some (.consuming off) ∧
      C.read s.log off = (.ok r, log) ∧
      stepSend A C s (⟨peer, .poll id⟩, failure) =
        ({ s with log }.setStream (user, id) (some (.consuming (off + 1))),
          .response (.consume r)) := by
  have hstep : step A C s ⟨peer, .poll id⟩ = pollStream C s (user, id) := by
    simp only [step, hauth, serve]
  -- where the step sends nothing, `Send` is not reached
  have hquiet : (∀ res, (pollStream C s (user, id)).2 ≠ .response res) →
      stepSend A C s (⟨peer, .poll id⟩, failure) = pollStream C s (user, id) := by
    intro hres
    rw [← hstep] at hres ⊢
    exact stepSend_quiet hres
  by_cases hst : ∃ off, s.streams (user, id) = some (.consuming off)
  · obtain ⟨off, hst⟩ := hst
    rcases hread : C.read s.log off with ⟨err | r, log⟩
    · rcases pollStream_error hst hread with hpoll | ⟨hpoll, hrange⟩
      · rw [hpoll] at hquiet
        rw [hquiet fun _ h => by cases h]
        exact .inl ⟨fun _ h => (by cases h), fun _ h => (by cases h), fun _ _ hoff => hoff⟩
      · rw [hpoll] at hquiet
        rw [hquiet fun _ h => by cases h]
        refine .inl ⟨fun _ h => (by cases h), fun _ _ => .inr ⟨off, err, by rw [hread], hrange⟩, ?_⟩
        exact fun _ _ hoff => consuming_of_setStream (by simp) hoff
    · cases failure with
      | none =>
          refine .inr ⟨off, r, log, hst, hread, ?_⟩
          simp only [stepSend, hstep, pollStream, hst, hread]
      | some msg =>
          have hfail : stepSend A C s (⟨peer, .poll id⟩, some msg) =
              (({ s with log }.setStream (user, id) (some (.consuming (off + 1)))).setStream
                (user, id) none, .unsent (.consume r) msg) := by
            simp only [stepSend, failSend, hauth, hstep, pollStream, hst, hread]
          rw [hfail]
          refine .inl ⟨fun _ h => (by cases h), fun err herr => ?_, fun call off' hoff => ?_⟩
          · cases herr
            exact .inl ⟨msg, rfl, rfl⟩
          by_cases hcall : call = (user, id)
          · rw [hcall, State.streams_setStream_self] at hoff
            cases hoff
          · rw [State.streams_setStream_of_ne _ hcall,
              State.streams_setStream_of_ne _ hcall] at hoff
            exact hoff
  · have hpoll : pollStream C s (user, id) = (s, .none) := by
      unfold pollStream
      split
      · next off hoff => exact absurd ⟨off, hoff⟩ hst
      · rfl
    rw [hpoll] at hquiet
    rw [hquiet fun _ h => by cases h]
    exact .inl ⟨fun _ h => (by cases h), fun _ h => (by cases h), fun _ _ hoff => hoff⟩

/-- What a step means for one call of `ConsumeStream`: nothing, or its end;
its begin; a record that it has read and sent. -/
theorem stepSend_cases (e : Event × Option String) (call : String × Nat) (h : Option Consumed) :
    (hear call h (e.1, (stepSend A C s e).2) = h ∧
      ∀ off, (stepSend A C s e).1.streams call = some (.consuming off) →
        s.streams call = some (.consuming off)) ∨
    (∃ off, hear call h (e.1, (stepSend A C s e).2) = some ⟨off, []⟩ ∧
      (stepSend A C s e).1.streams call = some (.consuming off)) ∨
    ∃ off r, s.streams call = some (.consuming off) ∧ (C.read s.log off).1 = .ok r ∧
      hear call h (e.1, (stepSend A C s e).2) = h.map (·.receive r) ∧
      (stepSend A C s e).1.streams call = some (.consuming (off + 1)) := by
  obtain ⟨⟨peer, action⟩, failure⟩ := e
  cases hauth : authenticate peer with
  | error msg =>
      have hstep : step A C s ⟨peer, action⟩ = (s, .unauthorized msg) := by
        simp only [step, hauth]
      refine .inl ⟨by simp only [hear, hauth], fun off hoff => ?_⟩
      rw [stepSend_quiet (by simp [hstep]), hstep] at hoff
      exact hoff
  | ok user =>
      cases action with
      | poll id =>
          rcases stepSend_poll (A := A) (C := C) (s := s) hauth id failure with
            ⟨hreply, -, hstreams⟩ | ⟨off, r, log, hst, hread, hstep⟩
          · refine .inl ⟨?_, hstreams call⟩
            unfold hear
            simp only [hauth]
            split
            · next hres => cases hres
            · next hres => exact absurd hres (hreply _)
            · rfl
          · by_cases hcall : (user, id) = call
            · subst hcall
              refine .inr (.inr ⟨off, r, hst, by rw [hread], ?_, ?_⟩)
              · simp only [hstep, hear, hauth, if_true]
              · rw [hstep, State.streams_setStream_self]
            · refine .inl ⟨by simp only [hstep, hear, hauth, if_neg hcall], fun off' hoff => ?_⟩
              rw [hstep, State.streams_setStream_of_ne _ (Ne.symm hcall)] at hoff
              exact hoff
      | consumeStream id off =>
          have hstep : stepSend A C s (⟨peer, .consumeStream id off⟩, failure) =
              (s.setStream (user, id) (some (.consuming off)), .none) := by
            rw [stepSend_of_action (by simp) (by simp)]
            simp only [hauth, step, serve]
          by_cases hcall : (user, id) = call
          · subst hcall
            refine .inr (.inl ⟨off, ?_, ?_⟩)
            · simp only [hear, hauth, if_true]
            · rw [hstep, State.streams_setStream_self]
          · refine .inl ⟨by simp only [hear, hauth, if_neg hcall], fun off' hoff => ?_⟩
            rw [hstep, State.streams_setStream_of_ne _ (Ne.symm hcall)] at hoff
            exact hoff
      | _ =>
          refine .inl ⟨by simp only [hear, hauth], fun off hoff => ?_⟩
          have hstep : (step A C s ⟨peer, _⟩).1.streams call = some (.consuming off) :=
            consuming_of_stepSend hoff
          simp only [step, hauth] at hstep
          exact consuming_of_serve (by simp) (by simp) hstep

theorem stepSend_error {e : Event × Option String} {id : Nat} (hact : e.1.action = .poll id)
    {err : RpcError} (h : (stepSend A C s e).2.error? = some err) : PollError C s e.2 err := by
  obtain ⟨⟨peer, action⟩, failure⟩ := e
  simp only at hact
  subst hact
  cases hauth : authenticate peer with
  | error msg =>
      have hstep : step A C s ⟨peer, .poll id⟩ = (s, .unauthorized msg) := by
        simp only [step, hauth]
      rw [stepSend_quiet (by simp [hstep]), hstep] at h
      cases h
  | ok user =>
      rcases stepSend_poll (A := A) (C := C) (s := s) hauth id failure with
        ⟨-, herror, -⟩ | ⟨off, r, log, -, -, hstep⟩
      · exact herror err h
      · rw [hstep] at h
        cases h

end

/-! ## Consumers of a log -/

variable {E : Env} {c : Config} {A : Authorizer} {s₀ : LogState}

/-- The client of a call has been sent the records appended from its start
offset on, and the loop is at the one after them. -/
structure Following (ps : List (Record × UInt64)) (st : Option Stream) (h : Option Consumed) :
    Prop where
  sent : ∀ q, h = some q → ∀ j r, q.sent[j]? = some r →
    ∃ r₀ off, off.toNat = q.start.toNat + j ∧ (r₀, off) ∈ ps ∧ r = { r₀ with offset := off }
  next : ∀ off, st = some (.consuming off) →
    ∃ q, h = some q ∧ off.toNat = q.start.toNat + q.sent.length

theorem Following.quiet {ps ps' : List (Record × UInt64)} {st st' : Option Stream}
    {h : Option Consumed} (hf : Following ps st h) (hsub : ps ⊆ ps')
    (hst : ∀ off, st' = some (.consuming off) → st = some (.consuming off)) :
    Following ps' st' h := by
  refine ⟨fun q hq j r hr => ?_, fun off hoff => hf.next off (hst off hoff)⟩
  obtain ⟨r₀, off, hoff, hmem, heq⟩ := hf.sent q hq j r hr
  exact ⟨r₀, off, hoff, hsub hmem, heq⟩

theorem Following.idle (ps : List (Record × UInt64)) : Following ps none none := by
  constructor
  · intro q hq
    cases hq
  · intro off hoff
    cases hoff

theorem Following.begin (ps : List (Record × UInt64)) (off : UInt64) :
    Following ps (some (.consuming off)) (some ⟨off, []⟩) := by
  constructor
  · intro q hq j r hr
    cases hq
    cases hr
  · intro off' hoff
    cases hoff
    exact ⟨_, rfl, rfl⟩

theorem Following.receive {ps : List (Record × UInt64)} {off : UInt64} {h : Option Consumed}
    {r : Record} (hf : Following ps (some (.consuming off)) h) (hmem : (r, off) ∈ ps)
    (hlt : off.toNat + 1 < 2 ^ 64) :
    Following ps (some (.consuming (off + 1)))
      (h.map (·.receive { r with offset := off })) := by
  obtain ⟨q, rfl, hoff⟩ := hf.next off rfl
  constructor
  · intro q' hq' j r' hr'
    cases hq'
    simp only [Consumed.receive] at hr' ⊢
    rcases Nat.lt_or_ge j q.sent.length with hj | hj
    · rw [List.getElem?_append_left hj] at hr'
      exact hf.sent q rfl j r' hr'
    · rw [List.getElem?_append_right hj, List.getElem?_singleton] at hr'
      split at hr'
      · exact ⟨r, off, by rw [hoff]; omega, hmem, (Option.some.inj hr').symm⟩
      · cases hr'
  · intro off' hoff'
    cases hoff'
    refine ⟨_, rfl, ?_⟩
    have hone : (1 : UInt64).toNat = 1 := rfl
    simp only [Consumed.receive]
    rw [UInt64.toNat_add, hone, Nat.mod_eq_of_lt hlt, List.length_append, List.length_singleton,
      hoff]
    omega

/-- All of it, for every call, and that no call has ended with another error
than a failed `Send`. -/
structure Consuming (E : Env) (c : Config) (s : State LogState)
    (xs : List ((Event × Option String) × Reply)) : Prop where
  log : s.log.1.Accounted E c.withDefaults s.log.2 c.initialOffset (assigned (replies xs))
  calls : ∀ call, Following (assigned (replies xs)) (s.streams call) (consumed call (replies xs))
  errors : ∀ x ∈ xs, (∃ id, x.1.1.action = .poll id) → ∀ err, x.2.error? = some err →
    ∃ msg, x.1.2 = some msg ∧ err = sendError msg

/-- Whatever a step does, the log accounts for what has been assigned. -/
theorem stepSend_accounted {s : State LogState} {e : Event × Option String} {first : UInt64}
    {xs : List (Event × Reply)} (h : s.log.1.Accounted E c s.log.2 first (assigned xs))
    (hok : AppendOk A (commitLog E) s e.1)
    (hbound : (assigned (xs ++ [(e.1, (stepSend A (commitLog E) s e).2)])).length < 2 ^ 64) :
    (stepSend A (commitLog E) s e).1.log.1.Accounted E c (stepSend A (commitLog E) s e).1.log.2
      first (assigned (xs ++ [(e.1, (stepSend A (commitLog E) s e).2)])) := by
  rcases stepSend_appends hok with ⟨hnone, hread⟩ | ⟨r, off, hsome, happ⟩
  · rw [assigned_concat_none hnone]
    rcases hread with hread | ⟨off, hread⟩
    · rw [hread]
      exact h
    · rw [hread]
      exact (Log.flushStable_accounted E c first (assigned xs)).read h rfl
  · rw [assigned_concat_some hsome] at hbound ⊢
    rw [List.length_append, List.length_singleton] at hbound
    exact h.append hbound happ

theorem Consuming.step
    {s : State LogState} {e : Event × Option String} {xs : List ((Event × Option String) × Reply)}
    (h : Consuming E c s xs) (hok : AppendOk A (commitLog E) s e.1)
    (h32 : s.log.1.EntriesFit) (hfit : s.log.1.FilesFit s.log.2)
    (hbound :
      (assigned (replies (xs ++ [(e, (stepSend A (commitLog E) s e).2)]))).length < 2 ^ 64) :
    Consuming E c (stepSend A (commitLog E) s e).1
      (xs ++ [(e, (stepSend A (commitLog E) s e).2)]) := by
  rw [replies_concat] at hbound
  have hlog := stepSend_accounted h.log hok hbound
  have hsub := (assigned_sublist_concat (replies xs) (e.1, (stepSend A (commitLog E) s e).2)).subset
  refine ⟨by rw [replies_concat]; exact hlog, fun call => ?_, fun x hx => ?_⟩
  · rw [replies_concat, consumed_concat]
    rcases stepSend_cases (A := A) (C := commitLog E) (s := s) e call
      (consumed call (replies xs)) with ⟨hhear, hst⟩ | ⟨off, hhear, hst⟩ |
      ⟨off, r, hst, hread, hhear, hst'⟩
    · rw [hhear]
      exact (h.calls call).quiet hsub hst
    · rw [hhear, hst]
      exact .begin _ off
    · rw [hhear, hst']
      have hcall := (h.calls call).quiet hsub fun _ => id
      rw [hst] at hcall
      rcases h.log.read h32 hfit off with hout | ⟨hlt, r₀, hmem, hok'⟩
      · rw [show (s.log.1.read E s.log.2 off).1 = .ok r from hread] at hout
        cases hout
      · rw [show (s.log.1.read E s.log.2 off).1 = .ok r from hread, Except.ok.injEq] at hok'
        rw [hok']
        exact hcall.receive (hsub hmem) hlt
  · rcases List.mem_append.mp hx with hx | hx
    · exact h.errors x hx
    · rw [List.mem_singleton.mp hx]
      rintro ⟨id, hact⟩ err herr
      rcases stepSend_error hact herr with hsend | ⟨off, f, hread, hrange⟩
      · exact hsend
      · rcases h.log.read h32 hfit off with hout | ⟨-, r₀, -, hok'⟩
        · rw [show (s.log.1.read E s.log.2 off).1 = .error f from hread, Except.error.injEq] at hout
          exact absurd hout (hrange off)
        · rw [show (s.log.1.read E s.log.2 off).1 = .error f from hread] at hok'
          cases hok'

/-- The step appends without an error, and in a state in which no segment has
more than 2^32 records and no file has outgrown the file system. -/
def Smooth (A : Authorizer) (E : Env) (s : State LogState) (e : Event × Option String) : Prop :=
  AppendOk A (commitLog E) s e.1 ∧ s.log.1.EntriesFit ∧ s.log.1.FilesFit s.log.2

instance (s : State LogState) (e : Event × Option String) : Decidable (Smooth A E s e) :=
  inferInstanceAs (Decidable (_ ∧ _))

/-- With an index of at most 12 * 2^32 bytes no segment gets that many. -/
theorem smooth_of_maxIndexBytes (hM : c.maxIndexBytes.toNat ≤ 12 * 2 ^ 32) {s₀ : LogState}
    {es : List (Event × Option String)} (hnew : newLog Directory.empty c = (.ok (), s₀))
    (hok : Machine.Along (stepSend A (commitLog E))
      (fun s e => AppendOk A (commitLog E) s e.1 ∧ s.log.1.FilesFit s.log.2) (start s₀) es)
    (hbound : (assigned (replies (Machine.run (stepSend A (commitLog E)) (start s₀) es).2)).length <
      2 ^ 64) :
    Machine.Along (stepSend A (commitLog E)) (Smooth A E) (start s₀) es := by
  induction es using List.reverseRecOn with
  | nil => trivial
  | append_singleton es e ih =>
      rw [Machine.along_concat] at hok ⊢
      rw [Machine.run_concat, replies_concat] at hbound
      have hless := Nat.lt_of_le_of_lt (assigned_sublist_concat _ _).length_le hbound
      refine ⟨ih hok.1 hless, hok.2.1, ?_, hok.2.2⟩
      have hlog := Machine.invariant
        (I := fun s xs => (assigned (replies xs)).length < 2 ^ 64 →
          s.log.1.Accounted E c.withDefaults s.log.2 c.initialOffset (assigned (replies xs)))
        (fun s xs e ih hP hb => by
          rw [replies_concat] at hb ⊢
          have hless := Nat.lt_of_le_of_lt (assigned_sublist_concat _ _).length_le hb
          exact stepSend_accounted (ih hless) hP.1 hb)
        (fun _ => newLog_accounted E hnew) hok.1
      exact (hlog hless).entriesFit (Config.withDefaults_le hM)

/-- **A stream has no gap, no duplicate and no reordering.** Whatever the
interleaving, the records that a client has been sent are those appended at
the offsets from its start offset on, each with its own offset; the loop is at
the next one; and it ends with an error only if `Send` has failed. The
producers have been told those offsets, unless `Send` has failed. -/
theorem consumed_in_order (E : Env) (c : Config) (A : Authorizer) {s₀ : LogState}
    {es : List (Event × Option String)} {s : State LogState}
    {xs : List ((Event × Option String) × Reply)}
    (hnew : newLog Directory.empty c = (.ok (), s₀))
    (hok : Machine.Along (stepSend A (commitLog E)) (Smooth A E) (start s₀) es)
    (hrun : Machine.run (stepSend A (commitLog E)) (start s₀) es = (s, xs))
    (hbound : (assigned (replies xs)).length < 2 ^ 64) :
    ((assigned (replies xs)).map Prod.snd).Nodup ∧
      (∀ call q, consumed call (replies xs) = some q → ∀ j r, q.sent[j]? = some r →
        ∃ r₀ off, off.toNat = q.start.toNat + j ∧ (r₀, off) ∈ assigned (replies xs) ∧
          r = { r₀ with offset := off }) ∧
      (∀ call off, s.streams call = some (.consuming off) →
        ∃ q, consumed call (replies xs) = some q ∧ off.toNat = q.start.toNat + q.sent.length) ∧
      (∀ x ∈ xs, (∃ id, x.1.1.action = .poll id) → ∀ err, x.2.error? = some err →
        ∃ msg, x.1.2 = some msg ∧ err = sendError msg) ∧
      ((∀ x ∈ xs, ∀ off msg, x.2 ≠ .unsent (.produce off) msg) →
        acks (replies xs) = assigned (replies xs)) := by
  have hstart : Consuming E c (start s₀) [] :=
    ⟨newLog_accounted E hnew, fun _ => .idle [], fun _ hx => absurd hx List.not_mem_nil⟩
  have hfinal := Machine.invariant
    (I := fun s xs => (assigned (replies xs)).length < 2 ^ 64 → Consuming E c s xs)
    (fun s xs e ih hP hb => (ih (by
      rw [replies_concat] at hb
      exact Nat.lt_of_le_of_lt (assigned_sublist_concat _ _).length_le hb)).step hP.1 hP.2.1
        hP.2.2 hb)
    (fun _ => hstart) hok
  rw [hrun] at hfinal
  obtain ⟨hlog, hcalls, herrors⟩ := hfinal hbound
  refine ⟨hlog.nodup hbound, fun call => (hcalls call).sent, fun call => (hcalls call).next,
    herrors, fun hsent => acks_eq_assigned fun x hx => ?_⟩
  obtain ⟨y, hy, rfl⟩ := List.mem_map.mp hx
  exact hsent y hy

/-- A consumer that is ahead of a producer, and one whose client has gone. -/
def twoConsumers : List (Event × Option String) :=
  [(⟨.verified "root", .consumeStream 0 5⟩, none),
    (⟨.verified "root", .poll 0⟩, none),
    (⟨.verified "root", .unary (.produce (some ⟨[7], 0, 0, 0⟩))⟩, none),
    (⟨.verified "nobody", .consumeStream 0 5⟩, none),
    (⟨.verified "root", .poll 0⟩, none),
    (⟨.verified "nobody", .poll 0⟩, some "broken pipe"),
    (⟨.verified "root", .unary (.produce (some ⟨[8], 0, 0, 0⟩))⟩, none),
    (⟨.verified "root", .poll 0⟩, none),
    (⟨.verified "nobody", .poll 0⟩, none)]

theorem consumed_in_order_two_consumers :
    let r := Machine.run (stepSend rootOnly (commitLog goEnv))
      (start (newLog Directory.empty ⟨64, 12, 5⟩).2) twoConsumers
    consumed ("root", 0) (replies r.2) = some ⟨5, [⟨[7], 5, 0, 0⟩, ⟨[8], 6, 0, 0⟩]⟩ ∧
      consumed ("nobody", 0) (replies r.2) = some ⟨5, []⟩ ∧
      (∀ call q, consumed call (replies r.2) = some q → ∀ j r', q.sent[j]? = some r' →
        ∃ r₀ off, off.toNat = q.start.toNat + j ∧ (r₀, off) ∈ assigned (replies r.2) ∧
          r' = { r₀ with offset := off }) ∧
      r.1.streams ("root", 0) = some (.consuming 7) := by
  have hnew : (newLog Directory.empty ⟨64, 12, 5⟩).1 = .ok () := by decide +kernel
  have hok : Machine.Along (stepSend rootOnly (commitLog goEnv)) (Smooth rootOnly goEnv)
      (start (newLog Directory.empty ⟨64, 12, 5⟩).2) twoConsumers :=
    smooth_of_maxIndexBytes (by decide) (Prod.ext hnew rfl) (by decide +kernel)
      (by decide +kernel)
  obtain ⟨-, hsent, -⟩ := consumed_in_order goEnv ⟨64, 12, 5⟩ rootOnly (Prod.ext hnew rfl) hok rfl
    (by decide +kernel)
  exact ⟨by decide +kernel, by decide +kernel, hsent, by decide +kernel⟩

/-! ## Past the bounds -/

/-- Record 2^32 of a segment is acknowledged with its offset, but a stream
that starts there is sent the first one, with offset 0. -/
theorem consumed_out_of_order_past_bounds :
    ∃ s₀ es s xs, newLog Directory.empty (wideConfig (2 ^ 32)) = (.ok (), s₀) ∧
      AppendsSucceed rootOnly goEnv s₀ es ∧
      Machine.run (stepSend rootOnly (commitLog goEnv)) (start s₀) es = (s, xs) ∧
      (⟨[8], 0, 0, 0⟩, 4294967296) ∈ acks (replies xs) ∧
      consumed ("root", 0) (replies xs) = some ⟨4294967296, [⟨[7], 0, 0, 0⟩]⟩ := by
  obtain ⟨s₀, s, L, hnew, htr, hrep, hfull, hact⟩ := exists_one_segment (n := 2 ^ 32) (by decide)
  obtain ⟨hok, hrun⟩ := run_produces (A := rootOnly) "root" (by decide) htr
  have hlast : (⟨[8], 0, 0, 0⟩, 4294967296) ∈ numbered 0 (oneThenMany (2 ^ 32)) :=
    mem_numbered.mpr ⟨2 ^ 32, last_oneThenMany (by decide), rfl⟩
  generalize numbered 0 (oneThenMany (2 ^ 32)) = ps at hok hrun hlast
  -- one round of a stream that starts at record 2^32
  have hround : (step rootOnly (commitLog goEnv) (run rootOnly (commitLog goEnv) (start s)
      [⟨.verified "root", .consumeStream 0 4294967296⟩]).1 ⟨.verified "root", .poll 0⟩).2 =
      .response (.consume ⟨[7], 0, 0, 0⟩) :=
    consume_served (Prod.ext (read_one_segment hrep hfull hact) rfl)
  rcases hsent : Machine.run (stepSend rootOnly (commitLog goEnv)) (start s₀)
    ((produces "root" ps).map Prod.fst ++
      [(⟨.verified "root", .consumeStream 0 4294967296⟩, none)] ++
      [(⟨.verified "root", .poll 0⟩, none)]) with ⟨s', xs⟩
  have hxs := congrArg Prod.snd hsent
  rw [Machine.run_concat, Machine.run_concat, hrun] at hxs
  simp only at hxs
  refine ⟨s₀, _, s', xs, hnew, ?_, hsent, ?_, ?_⟩
  · rw [AppendsSucceed, Machine.along_concat, Machine.along_concat]
    exact ⟨⟨hok, fun _ h => (by cases h)⟩, fun _ h => by cases h⟩
  · rw [← hxs, replies_concat, replies_concat]
    refine (acks_sublist_concat _ _).subset ((acks_sublist_concat _ _).subset ?_)
    rw [acks_produces]
    exact hlast
  · rw [← hxs, replies_concat, replies_concat, consumed_concat, consumed_concat]
    exact congrArg (fun reply => hear ("root", 0) (some ⟨4294967296, []⟩)
      (⟨.verified "root", .poll 0⟩, reply)) hround

end DistributedLog.Server
