import DistributedLog.Appends
import DistributedLog.Consent
import DistributedLog.Sound

/-!
# Producers

Any number of clients call `Produce` and `ProduceStream` on a server over
one `log.Log`. A step of the server appends a record (`step_appended`) or
does to the log what a read does (`step_idle`), whoever it is for, so the
offsets assigned in a run are those of the records of the log, numbered in
the order in which they were appended (`Produced.step`, `run_produced`). The
producer is told its offset unless `Send` fails, which is after the append.
-/

namespace DistributedLog.Server

section

variable {σ : Type} {A : Authorizer} {C : CommitLog σ} {s : State σ} {e : Event}

/-! ## What a step does to the log -/

/-- The record that a step hands to `CommitLog.Append`, if it does. -/
def appended (A : Authorizer) (s : State σ) (e : Event) : Option (Option Record) :=
  match authenticate e.peer with
  | .error _ => none
  | .ok user =>
      match e.action with
      | .unary (.produce record) => if A.permits user .produce then some record else none
      | .send id record => if s.streams (user, id) = some .producing then some record else none
      | _ => none

/-- The interceptors pass a permitted request on. -/
theorem unaryFunc_permitted {user : String} {m : Message}
    (h : A.permits user m.procedure = true) (log : σ) :
    unaryFunc A C user m log = errorInterceptor (errorInterceptor (handler C)) user m log := by
  have henf : A.enforce user "*" m.procedure.path = .ok true := by
    unfold Authorizer.permits at h
    split at h
    · next allowed henf => rw [henf, h]
    · cases h
  rw [unaryFunc, loggingInterceptor, errorInterceptor, errorInterceptor]
  simp only [Authorizer.interceptor, henf]

theorem errorInterceptor_ok {next : UnaryFunc σ} {user : String} {m : Message} {log log' : σ}
    {res : Response} (h : next user m log = (.ok res, log')) :
    errorInterceptor next user m log = (.ok res, log') := by
  rw [errorInterceptor, h]

theorem unaryFunc_ok {user : String} {m : Message} {log log' : σ} {res : Response}
    (hp : A.permits user m.procedure = true) (h : handler C user m log = (.ok res, log')) :
    unaryFunc A C user m log = (.ok res, log') := by
  rw [unaryFunc_permitted hp]
  exact errorInterceptor_ok (errorInterceptor_ok h)

/-- The record of a `ProduceRequest`. -/
def Action.record? : Action → Option Record
  | .unary (.produce record) => record
  | .send _ record => record
  | _ => none

theorem record?_of_appended {record : Option Record} (h : appended A s e = some record) :
    e.action.record? = record := by
  obtain ⟨peer, action⟩ := e
  unfold appended at h
  cases hauth : authenticate peer with
  | error msg => simp [hauth] at h
  | ok user =>
      simp only [hauth] at h
      split at h
      · split at h
        · exact Option.some.inj h
        · cases h
      · split at h
        · exact Option.some.inj h
        · cases h
      · cases h

theorem step_appended {record : Option Record} {off : UInt64} {log : σ}
    (h : appended A s e = some record) (happ : C.append s.log record = (.ok off, log)) :
    step A C s e = ({ s with log }, .response (.produce off)) := by
  obtain ⟨peer, action⟩ := e
  unfold appended at h
  unfold step
  cases hauth : authenticate peer with
  | error msg => simp [hauth] at h
  | ok user =>
      simp only [hauth] at h ⊢
      split at h
      · split at h
        · next hp =>
          cases h
          have hhandler : handler C user (.produce record) s.log = (.ok (.produce off), log) := by
            simp only [handler, happ]
          simp only [serve, unaryFunc_ok hp hhandler]
        · cases h
      · split at h
        · next hst =>
          cases h
          simp only [serve, sendStream, hst, happ]
        · cases h
      · cases h

/-- A step that appends nothing reads at most. -/
theorem step_idle (h : appended A s e = none) :
    ((step A C s e).1.log = s.log ∨ ∃ off, (step A C s e).1.log = (C.read s.log off).2) ∧
      ∀ off, (step A C s e).2 ≠ .response (.produce off) := by
  obtain ⟨peer, action⟩ := e
  unfold appended at h
  unfold step
  cases hauth : authenticate peer with
  | error msg => exact ⟨.inl rfl, fun _ h => by cases h⟩
  | ok user =>
      simp only [hauth] at h ⊢
      cases action with
      | unary m =>
          by_cases hp : A.permits user m.procedure = true
          · cases m with
            | produce record =>
                simp only [show A.permits user .produce = true from hp, if_true] at h
                cases h
            | consume off =>
                rcases hread : C.read s.log off with ⟨res, log⟩
                cases res <;>
                  simp only [serve, unaryFunc_permitted hp, errorInterceptor, handler, hread] <;>
                  exact ⟨.inr ⟨off, (congrArg Prod.snd hread).symm⟩, fun _ h => by cases h⟩
          · rw [Bool.not_eq_true] at hp
            obtain ⟨err, herr⟩ := unaryFunc_denied (C := C) hp
            simp only [serve, herr]
            exact ⟨.inl trivial, fun _ h => by cases h⟩
      | send id record =>
          have hst : s.streams (user, id) ≠ some .producing := by
            intro hst
            simp [hst] at h
          simp only [serve, sendStream]
          exact ⟨.inl trivial, fun _ h => by cases h⟩
      | poll id =>
          simp only [serve, pollStream]
          split
          · next off _ =>
            split <;> next hread =>
              exact ⟨.inr ⟨off, (congrArg Prod.snd hread).symm⟩, fun _ h => by cases h⟩
          · exact ⟨.inl rfl, fun _ h => by cases h⟩
      | consumeStream id off => exact ⟨.inl rfl, fun _ h => by cases h⟩
      | produceStream id => exact ⟨.inl rfl, fun _ h => by cases h⟩
      | _ =>
          simp only [serve]
          split <;> exact ⟨.inl rfl, fun _ h => by cases h⟩

/-- Without an error of `Send`, what there is to send is sent. -/
theorem step_sent (res : Response) (msg : String) : (step A C s e).2 ≠ .unsent res msg := by
  obtain ⟨peer, action⟩ := e
  unfold step
  cases authenticate peer with
  | error _ => simp
  | ok user =>
      cases action with
      | unary m =>
          simp only [serve]
          split <;> simp
      | poll id =>
          simp only [serve, pollStream]
          split
          · split <;> simp
          · simp
      | send id record =>
          simp only [serve, sendStream]
          split
          · split <;> simp
          · simp
      | consumeStream id off => simp [serve]
      | produceStream id => simp [serve]
      | _ =>
          simp only [serve]
          split <;> simp

/-! ## Runs -/

/-- If the step appends, its `Append` succeeds. -/
def AppendOk (A : Authorizer) (C : CommitLog σ) (s : State σ) (e : Event) : Prop :=
  ∀ record ∈ appended A s e, (C.append s.log record).1.isOk

instance : Decidable (AppendOk A C s e) :=
  inferInstanceAs (Decidable (∀ record ∈ appended A s e, (C.append s.log record).1.isOk))

theorem exists_append_ok {record : Option Record} {log : σ}
    (h : (C.append log record).1.isOk = true) :
    ∃ off log', C.append log record = (.ok off, log') := by
  rcases happ : C.append log record with ⟨err | off, log'⟩
  · rw [happ] at h
    cases h
  · exact ⟨off, log', rfl⟩

/-! ## Acknowledgements -/

/-- A record and the offset that its producer was told. -/
def ack (x : Event × Reply) : Option (Record × UInt64) :=
  match x.1.action.record?, x.2 with
  | some r, .response (.produce off) => some (r, off)
  | _, _ => none

def acks (xs : List (Event × Reply)) : List (Record × UInt64) := xs.filterMap ack

theorem acks_sublist_concat (xs : List (Event × Reply)) (x : Event × Reply) :
    (acks xs).Sublist (acks (xs ++ [x])) := by
  rw [acks, acks, List.filterMap_append]
  exact List.sublist_append_left _ _

/-- A record and the offset that `Append` returned for it, whether its producer
was told or not. -/
def assign (x : Event × Reply) : Option (Record × UInt64) :=
  match x.1.action.record?, x.2 with
  | some r, .response (.produce off) | some r, .unsent (.produce off) _ => some (r, off)
  | _, _ => none

def assigned (xs : List (Event × Reply)) : List (Record × UInt64) := xs.filterMap assign

theorem assigned_concat_none {x : Event × Reply} (h : assign x = none)
    (xs : List (Event × Reply)) : assigned (xs ++ [x]) = assigned xs := by
  simp [assigned, List.filterMap_append, h]

theorem assigned_concat_some {x : Event × Reply} {p : Record × UInt64} (h : assign x = some p)
    (xs : List (Event × Reply)) : assigned (xs ++ [x]) = assigned xs ++ [p] := by
  simp [assigned, List.filterMap_append, h]

theorem assigned_sublist_concat (xs : List (Event × Reply)) (x : Event × Reply) :
    (assigned xs).Sublist (assigned (xs ++ [x])) := by
  rw [assigned, assigned, List.filterMap_append]
  exact List.sublist_append_left _ _

/-- What is acknowledged has been assigned. -/
theorem ack_eq_assign {x : Event × Reply} (h : ∀ off msg, x.2 ≠ .unsent (.produce off) msg) :
    ack x = assign x := by
  unfold ack assign
  split
  · next hr hx => simp only [hr, hx]
  · next hno =>
    split
    · next hr hx => exact absurd hx (hno _ _ hr)
    · next hx => exact absurd hx (h _ _)
    · rfl

theorem ack_unsent {res : Response} {msg : String} : ack (e, .unsent res msg) = none := by
  unfold ack
  split
  · next hx => cases hx
  · rfl

theorem acks_sublist_assigned (xs : List (Event × Reply)) : (acks xs).Sublist (assigned xs) := by
  induction xs with
  | nil => exact List.Sublist.slnil
  | cons x xs ih =>
      obtain ⟨e, reply⟩ := x
      by_cases hsent : ∃ off msg, reply = .unsent (.produce off) msg
      · obtain ⟨off, msg, rfl⟩ := hsent
        rw [acks, List.filterMap_cons_none ack_unsent]
        exact ih.trans (List.Sublist.filterMap assign (List.sublist_cons_self _ _))
      · have heq : ack (e, reply) = assign (e, reply) :=
          ack_eq_assign fun off msg h => hsent ⟨off, msg, h⟩
        rw [acks, assigned, List.filterMap_cons, List.filterMap_cons, heq]
        split
        · exact ih
        · exact ih.cons_cons _

/-- Where every `Send` goes through, the producers are told everything. -/
theorem acks_eq_assigned {xs : List (Event × Reply)}
    (h : ∀ x ∈ xs, ∀ off msg, x.2 ≠ .unsent (.produce off) msg) : acks xs = assigned xs :=
  List.filterMap_congr fun x hx => ack_eq_assign (h x hx)

theorem assign_of_idle {reply : Reply} (h : ∀ off, reply ≠ .response (.produce off))
    (hsent : ∀ res msg, reply ≠ .unsent res msg) : assign (e, reply) = none := by
  unfold assign
  split
  · next off _ hreply => exact absurd hreply (h off)
  · next hreply => exact absurd hreply (hsent _ _)
  · rfl

/-- The message was sent on this `ProduceStream`. -/
def Event.sentOn (call : String × Nat) (e : Event) : Bool :=
  match authenticate e.peer, e.action with
  | .ok user, .send id _ => (user, id) = call
  | _, _ => false

/-- The replies of a run in which sends may fail. -/
def replies (xs : List ((Event × Option String) × Reply)) : List (Event × Reply) :=
  xs.map fun x => (x.1.1, x.2)

theorem replies_concat (xs : List ((Event × Option String) × Reply))
    (x : (Event × Option String) × Reply) :
    replies (xs ++ [x]) = replies xs ++ [(x.1.1, x.2)] := by
  simp [replies]

/-- What `Send` does: it changes no log and assigns nothing. -/
theorem stepSend_log (e : Event × Option String) :
    (stepSend A C s e).1.log = (step A C s e.1).1.log ∧
      assign (e.1, (stepSend A C s e).2) = assign (e.1, (step A C s e.1).2) := by
  obtain ⟨e, failure⟩ := e
  unfold stepSend failSend
  cases failure with
  | none => exact ⟨rfl, rfl⟩
  | some msg =>
      simp only
      split
      · next hact hres => exact ⟨rfl, by simp only [assign, hact, Action.record?]⟩
      · next id record res _ hact hres =>
        refine ⟨rfl, ?_⟩
        simp only [hres, assign, hact, Action.record?]
        cases record <;> cases res <;> rfl
      · exact ⟨rfl, rfl⟩

/-- The acknowledgements on one `ProduceStream`. -/
def acksOn (call : String × Nat) (xs : List (Event × Reply)) : List (Record × UInt64) :=
  acks (xs.filter fun x => x.1.sentOn call)

end

/-! ## Producers of a log -/

/-- The server before the first request. -/
def start (s : LogState) : State LogState := ⟨s, fun _ => none⟩

/-- A `log.Log` appends a record or nothing, and takes a nil record for an
error. -/
theorem exists_record {s s' : LogState} {E : Env} {record : Option Record} {off : UInt64}
    (h : (commitLog E).append s record = (.ok off, s')) :
    ∃ r, record = some r ∧ s.1.append E s.2 (some r) = (.ok off, s') := by
  cases record with
  | some r => exact ⟨r, rfl, h⟩
  | none =>
      simp only [commitLog, Log.append] at h
      split at h
      · cases h
      · simp [Segment.append] at h

variable {E : Env} {c : Config} {A : Authorizer} {s₀ : LogState}

/-- A step assigns an offset to a record and has appended it, or leaves the log
to a reader. -/
theorem stepSend_appends {s : State LogState} {e : Event × Option String}
    (hok : AppendOk A (commitLog E) s e.1) :
    (assign (e.1, (stepSend A (commitLog E) s e).2) = none ∧
      ((stepSend A (commitLog E) s e).1.log = s.log ∨
        ∃ off, (stepSend A (commitLog E) s e).1.log = (s.log.1.read E s.log.2 off).2)) ∨
    ∃ r off, assign (e.1, (stepSend A (commitLog E) s e).2) = some (r, off) ∧
      Appends E s.log (r, off) (stepSend A (commitLog E) s e).1.log := by
  obtain ⟨hlog, hassign⟩ := stepSend_log (A := A) (C := commitLog E) (s := s) e
  rw [hlog, hassign]
  cases happ : appended A s e.1 with
  | none =>
      obtain ⟨hlog, hreply⟩ := step_idle (C := commitLog E) happ
      exact .inl ⟨assign_of_idle hreply step_sent, hlog⟩
  | some record =>
      obtain ⟨off, log, hlog⟩ := exists_append_ok (hok record happ)
      obtain ⟨r, rfl, hr⟩ := exists_record hlog
      refine .inr ⟨r, off, ?_, ?_⟩
      · simp only [step_appended happ hlog, assign, record?_of_appended happ]
      · rw [step_appended happ hlog]
        exact hr

/-- The log holds the records of `ps`, in the order of their offsets. -/
def Produced (E : Env) (c : Config) (s : State LogState) (ps : List (Record × UInt64)) : Prop :=
  ∃ L rs, s.log.1.Rep E c.withDefaults s.log.2 L ∧ L.abs = ⟨c.initialOffset.toNat, rs⟩ ∧
    ps = numbered c.initialOffset.toNat rs

theorem Produced.start (hnew : newLog Directory.empty c = (.ok (), s₀)) :
    Produced E c (start s₀) [] :=
  ⟨_, [], .of_newLog E hnew, rfl, rfl⟩

theorem Produced.step {s : State LogState} {e : Event × Option String}
    {xs : List (Event × Reply)} (h : Produced E c s (assigned xs))
    (hok : AppendOk A (commitLog E) s e.1)
    (hbound : c.initialOffset.toNat +
      (assigned (xs ++ [(e.1, (stepSend A (commitLog E) s e).2)])).length < 2 ^ 64) :
    Produced E c (stepSend A (commitLog E) s e).1
      (assigned (xs ++ [(e.1, (stepSend A (commitLog E) s e).2)])) := by
  obtain ⟨L, rs, hrep, habs, hps⟩ := h
  rcases stepSend_appends hok with ⟨hnone, hlog⟩ | ⟨r, off, hsome, happ⟩
  · rw [assigned_concat_none hnone]
    refine ⟨L, rs, ?_, habs, hps⟩
    rcases hlog with hlog | ⟨off, hlog⟩
    · rw [hlog]
      exact hrep
    · rw [hlog]
      exact (Log.flushStable_rep E _ L).read hrep rfl
  · have hnext : L.next = c.initialOffset.toNat + rs.length := by
      rw [← L.abs_next, habs, AppendOnly.next]
    rw [assigned_concat_some hsome, hps, List.length_append, length_numbered,
      List.length_singleton] at hbound
    obtain ⟨L', hrep', habs'⟩ := hrep.append_abs happ (by omega)
    refine ⟨L', rs ++ [r], hrep', by rw [habs', habs, AppendOnly.push], ?_⟩
    rw [assigned_concat_some hsome, hps, numbered_concat, ← hnext, ← hrep.append_off happ,
      UInt64.ofNat_toNat]

/-- No `Append` of the run fails. -/
def AppendsSucceed (A : Authorizer) (E : Env) (s : LogState) (es : List (Event × Option String)) :
    Prop :=
  Machine.Along (stepSend A (commitLog E)) (fun s e => AppendOk A (commitLog E) s e.1) (start s) es

instance (s : LogState) (es : List (Event × Option String)) :
    Decidable (AppendsSucceed A E s es) :=
  inferInstanceAs (Decidable (Machine.Along _ _ _ es))

theorem run_produced (hnew : newLog Directory.empty c = (.ok (), s₀))
    {es : List (Event × Option String)} (hok : AppendsSucceed A E s₀ es)
    (hbound : c.initialOffset.toNat + (assigned (replies
      (Machine.run (stepSend A (commitLog E)) (start s₀) es).2)).length < 2 ^ 64) :
    Produced E c (Machine.run (stepSend A (commitLog E)) (start s₀) es).1
      (assigned (replies (Machine.run (stepSend A (commitLog E)) (start s₀) es).2)) := by
  -- an earlier state has assigned no more than the last one
  refine Machine.invariant
    (I := fun s xs => c.initialOffset.toNat + (assigned (replies xs)).length < 2 ^ 64 →
      Produced E c s (assigned (replies xs)))
    (fun s xs e ih hP hb => ?_) (fun _ => Produced.start hnew) hok hbound
  rw [replies_concat] at hb ⊢
  simp only at hb
  refine (ih ?_).step hP hb
  have hle := (assigned_sublist_concat (replies xs)
    (e.1, (stepSend A (commitLog E) s e).2)).length_le
  omega

/-! ## The three promises -/

theorem acksOn_sublist (call : String × Nat) (xs : List (Event × Reply)) :
    (acksOn call xs).Sublist (acks xs) :=
  List.filter_sublist.filterMap ack

/-- **No acknowledged record is lost, duplicated or mixed up.** Whatever the
interleaving, the offsets assigned are the consecutive ones from the initial
offset. The producers are told them, each once and in this order, but for
those whose `Send` has failed; what is told on one stream increases; and a
record can be consumed under its offset. -/
theorem produced_once (E : Env) (c : Config) (A : Authorizer) {s₀ : LogState}
    {es : List (Event × Option String)} {s : State LogState}
    {xs : List ((Event × Option String) × Reply)}
    (hnew : newLog Directory.empty c = (.ok (), s₀)) (hok : AppendsSucceed A E s₀ es)
    (hrun : Machine.run (stepSend A (commitLog E)) (start s₀) es = (s, xs))
    (hbound : c.initialOffset.toNat + (assigned (replies xs)).length < 2 ^ 64) :
    (assigned (replies xs)).map Prod.snd = (List.range (assigned (replies xs)).length).map
        (fun i => UInt64.ofNat (c.initialOffset.toNat + i)) ∧
      (acks (replies xs)).Sublist (assigned (replies xs)) ∧
      ((∀ x ∈ xs, ∀ off msg, x.2 ≠ .unsent (.produce off) msg) →
        acks (replies xs) = assigned (replies xs)) ∧
      (∀ call, (acksOn call (replies xs)).Pairwise fun p q => p.2 < q.2) ∧
      (s.log.1.EntriesFit → s.log.1.FilesFit s.log.2 →
        ∀ p ∈ assigned (replies xs), ∀ user,
          (handler (commitLog E) user (.consume p.2) s.log).1 =
            .ok (.consume { p.1 with offset := p.2 })) := by
  have hprod := run_produced hnew hok (by rw [hrun]; exact hbound)
  rw [hrun] at hprod
  obtain ⟨L, rs, hrep, habs, hps⟩ := hprod
  have hsub := acks_sublist_assigned (replies xs)
  simp only at hps
  rw [hps] at hbound hsub ⊢
  rw [length_numbered] at hbound ⊢
  refine ⟨map_snd_numbered _ rs, hsub, fun hsent => ?_, fun call => ?_,
    fun h32 hfit p hp user => ?_⟩
  · rw [← hps]
    refine acks_eq_assigned fun x hx => ?_
    obtain ⟨y, hy, rfl⟩ := List.mem_map.mp hx
    exact hsent y hy
  · exact (pairwise_numbered (by omega)).sublist ((acksOn_sublist call _).trans hsub)
  · obtain ⟨i, hi, hoff⟩ := mem_numbered.mp hp
    have hlt : i < rs.length := (List.getElem?_eq_some_iff.mp hi).1
    have hnat : p.2.toNat = c.initialOffset.toNat + i := by
      rw [hoff, UInt64.toNat_ofNat', Nat.mod_eq_of_lt (by omega)]
    have hget : L.abs.get? p.2.toNat = some p.1 := by
      rw [habs, hnat, AppendOnly.get?_of_le (Nat.le_add_right _ _), Nat.add_sub_cancel_left]
      exact hi
    obtain ⟨l', d', hread, -⟩ := hrep.read_of_entries (hrep.len_le h32) (hrep.fits hfit) p.2
    simp only [handler, commitLog, hread, Log.readOf, hget]

/-- Two clients, one with `Produce` and one with `ProduceStream`, which goes
away while it waits for an answer. -/
def twoProducers : List (Event × Option String) :=
  [(⟨.verified "nobody", .produceStream 0⟩, none),
    (⟨.verified "root", .unary (.produce (some ⟨[7], 0, 0, 0⟩))⟩, none),
    (⟨.verified "nobody", .send 0 (some ⟨[8], 0, 0, 0⟩)⟩, none),
    (⟨.verified "root", .unary (.produce (some ⟨[9], 0, 0, 0⟩))⟩, none),
    (⟨.verified "nobody", .send 0 (some ⟨[10], 0, 0, 0⟩)⟩, none),
    (⟨.verified "nobody", .send 0 (some ⟨[11], 0, 0, 0⟩)⟩, some "broken pipe")]

theorem produced_once_two_producers :
    let r := Machine.run (stepSend rootOnly (commitLog goEnv))
      (start (newLog Directory.empty ⟨64, 24, 5⟩).2) twoProducers
    (assigned (replies r.2)).map Prod.snd = [5, 6, 7, 8, 9] ∧
      (acks (replies r.2)).map Prod.snd = [5, 6, 7, 8] ∧
      (acks (replies r.2)).Sublist (assigned (replies r.2)) ∧
      (acksOn ("nobody", 0) (replies r.2)).map Prod.snd = [6, 8] ∧
      (acksOn ("nobody", 0) (replies r.2)).Pairwise (fun p q => p.2 < q.2) ∧
      ∀ p ∈ assigned (replies r.2),
        (handler (commitLog goEnv) "root" (.consume p.2) r.1.log).1 =
          .ok (.consume { p.1 with offset := p.2 }) := by
  have hnew : (newLog Directory.empty ⟨64, 24, 5⟩).1 = .ok () := by decide +kernel
  have hok : AppendsSucceed rootOnly goEnv (newLog Directory.empty ⟨64, 24, 5⟩).2 twoProducers := by
    decide +kernel
  obtain ⟨hoffs, hsub, -, hstream, hconsume⟩ := produced_once goEnv ⟨64, 24, 5⟩ rootOnly
    (Prod.ext hnew rfl) hok rfl (by decide +kernel)
  refine ⟨hoffs.trans (by decide +kernel), by decide +kernel, hsub, by decide +kernel, hstream _,
    fun p hp => ?_⟩
  exact hconsume (by decide +kernel) (by decide +kernel) p hp "root"

/-! ## Past the bounds -/

/-- The requests that append these records. -/
def produces (user : String) (ps : List (Record × UInt64)) :
    List ((Event × Option String) × Reply) :=
  ps.map fun p =>
    ((⟨.verified user, .unary (.produce (some p.1))⟩, none), .response (.produce p.2))

theorem acks_produces (user : String) (ps : List (Record × UInt64)) :
    acks (replies (produces user ps)) = ps := by
  rw [acks, replies, produces, List.map_map, List.filterMap_map]
  exact List.filterMap_some

/-- A run of appends as a run of the server. -/
theorem run_produces (user : String) (hp : A.permits user .produce = true) {s : LogState}
    {ps : List (Record × UInt64)} (htr : Trace (Appends E) s₀ ps s) :
    AppendsSucceed A E s₀ ((produces user ps).map Prod.fst) ∧
      Machine.run (stepSend A (commitLog E)) (start s₀) ((produces user ps).map Prod.fst) =
        (start s, produces user ps) := by
  induction htr with
  | init => exact ⟨trivial, rfl⟩
  | @snoc ps p s s' _ happ ih =>
      obtain ⟨hok, hrun⟩ := ih
      have hconcat : produces user (ps ++ [p]) = produces user ps ++
          [((⟨.verified user, .unary (.produce (some p.1))⟩, none), .response (.produce p.2))] := by
        rw [produces, List.map_append]
        rfl
      have happended : appended A (start s)
          ⟨.verified user, .unary (.produce (some p.1))⟩ = some (some p.1) := by
        simp only [appended, authenticate, hp, if_true]
      have happ' : (commitLog E).append (start s).log (some p.1) = (.ok p.2, s') := happ
      rw [hconcat, List.map_append, List.map_singleton, Machine.run_concat, AppendsSucceed,
        Machine.along_concat, hrun]
      refine ⟨⟨hok, fun record hrec => ?_⟩, ?_⟩
      · rw [happended, Option.mem_def, Option.some.injEq] at hrec
        rw [← hrec, happ']
        rfl
      · simp only [stepSend, step_appended happended happ']
        rfl

/-- Where it fails. A producer goes away after its record has been appended at
0, so the only offset acknowledged is 1. After the last offset there is, a
stream is told 0, and the last record cannot be consumed. And record 2^32 of a
segment is acknowledged, but the first one is consumed under its offset. -/
theorem produced_lost_past_bounds :
    (let s₀ := (newLog Directory.empty ⟨64, 24, 0⟩).2
      let es : List (Event × Option String) := [(⟨.verified "root", .produceStream 0⟩, none),
        (⟨.verified "root", .send 0 (some ⟨[8], 0, 0, 0⟩)⟩, some "broken pipe"),
        (⟨.verified "root", .unary (.produce (some ⟨[9], 0, 0, 0⟩))⟩, none)]
      AppendsSucceed rootOnly goEnv s₀ es ∧
        (acks (replies (Machine.run (stepSend rootOnly (commitLog goEnv)) (start s₀) es).2)).map
          Prod.snd = [1]) ∧
    (let s₀ := (newLog Directory.empty ⟨64, 12, 18446744073709551615⟩).2
      let es : List (Event × Option String) := [(⟨.verified "root", .produceStream 0⟩, none),
        (⟨.verified "root", .send 0 (some ⟨[7], 0, 0, 0⟩)⟩, none),
        (⟨.verified "root", .send 0 (some ⟨[8], 0, 0, 0⟩)⟩, none),
        (⟨.verified "root", .unary (.consume 18446744073709551615)⟩, none)]
      AppendsSucceed rootOnly goEnv s₀ es ∧
        (Machine.run (stepSend rootOnly (commitLog goEnv)) (start s₀) es).2.map Prod.snd =
          [.none, .response (.produce 18446744073709551615), .response (.produce 0),
            .error (.commit (.offsetOutOfRange 18446744073709551615))]) ∧
    ∃ s₀ s es xs, newLog Directory.empty (wideConfig (2 ^ 32)) = (.ok (), s₀) ∧
      AppendsSucceed rootOnly goEnv s₀ es ∧
      Machine.run (stepSend rootOnly (commitLog goEnv)) (start s₀) es = (s, xs) ∧
      (⟨[8], 0, 0, 0⟩, 4294967296) ∈ acks (replies xs) ∧
      (handler (commitLog goEnv) "root" (.consume 4294967296) s.log).1 =
        .ok (.consume ⟨[7], 0, 0, 0⟩) := by
  refine ⟨by decide +kernel, by decide +kernel, ?_⟩
  obtain ⟨s₀, s, L, hnew, htr, hrep, hfull, hact⟩ := exists_one_segment (n := 2 ^ 32) (by decide)
  obtain ⟨hok, hrun⟩ := run_produces (A := rootOnly) "root" (by decide) htr
  refine ⟨s₀, start s, _, _, hnew, hok, hrun, ?_, ?_⟩
  · rw [acks_produces]
    exact mem_numbered.mpr ⟨2 ^ 32, last_oneThenMany (by decide), rfl⟩
  · have hread := read_one_segment hrep hfull hact
    rcases hr : s.1.read goEnv s.2 4294967296 with ⟨res, l', d'⟩
    rw [hr] at hread
    simp only at hread
    subst hread
    simp only [handler, commitLog, start, hr]

end DistributedLog.Server
