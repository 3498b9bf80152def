import Mathlib.Data.List.Infix
import DistributedLog.Trace

/-!
# Starting and stopping an agent

`New` (`internal/agent/agent.go`) sets up the listener, the log, the server
and the membership one after the other, and the server already runs in a
goroutine of its own while the membership is set up. `Shutdown` may be called
by that goroutine when `Serve` returns, by the one of `serve`, and by everyone
who has the agent; a mutex and a flag let one call through.

In any order of all these steps what `Shutdown` calls is called once at most
and in one order (`shutdown_runs_once`). But the flag is set before the work
is done: when `Leave` returns an error the server and the log stay as they
are for good, and every later `Shutdown` returns nil. An agent that `New`
could not set up is given to nobody, so nothing closes what was set up before
the error (`failed_new_leaks`).
-/

namespace DistributedLog.Agent

/-- What an agent is made of, in the order in which `New` sets it up. -/
inductive Part where
  | mux
  | log
  | server
  | membership
deriving DecidableEq

def parts : List Part := [.mux, .log, .server, .membership]

/-- A part is down once the function that `Shutdown` has for it has returned
nil. For the membership that is `Leave`: the node has told the others, and
serf goes on running. -/
inductive Handle where
  | unset
  | up
  | down
deriving DecidableEq

/-- How a function of `New` ends. With an error it has set its part or not. -/
inductive Ending where
  | ok
  | failed (set : Bool)
deriving DecidableEq

/-- `setupLog` opens the log and then waits for a leader, `setupMembership`
starts serf and then joins the others. -/
def Part.mayFailSet : Part → Bool
  | log | membership => true
  | mux | server => false

/-- Where `New` is. -/
inductive Progress where
  | running (todo : List Part)
  | returned
  | failed
deriving DecidableEq

/-- The functions that `Shutdown` calls. -/
inductive Closer where
  | leave
  | stop
  | close
deriving DecidableEq

def closers : List Closer := [.leave, .stop, .close]

def Closer.parts : Closer → List Part
  | leave => [.membership]
  | stop => [.server, .mux]
  | close => [.log]

def Part.closer : Part → Closer
  | membership => .leave
  | server | mux => .stop
  | log => .close

theorem mem_parts {p : Part} {k : Closer} : p ∈ k.parts ↔ k = p.closer := by
  cases p <;> cases k <;> decide

inductive Outcome where
  | ok
  | failed
  | panicked
deriving DecidableEq

/-- Who calls `Shutdown`. -/
inductive Caller where
  | server
  | serve
  | owner (id : Nat)
deriving DecidableEq

/-- The call that holds `shutdownMu`. -/
structure Call where
  caller : Caller
  -- whether `a.membership` was set when its `Leave` was put into the list
  bound : Bool
  todo : List Closer
  err : Option Closer

structure State where
  new : Progress
  handle : Part → Handle
  shutdown : Bool
  -- whether it is closed
  shutdownCh : Bool
  inside : Option Call
  panicked : Bool

def start : State := ⟨.running parts, fun _ => .unset, false, false, none, false⟩

/-- After a function of `New`. -/
def State.setup (s : State) (p : Part) (h : Handle) (new : Progress) : State :=
  { s with new := new, handle := fun q => if q = p then h else s.handle q }

/-- The goroutine of `setupServer` has no need of the agent that `New`
returns. -/
def State.calls (s : State) : Caller → Bool
  | .server => s.handle .server ≠ .unset
  | .serve | .owner _ => s.new = .returned

inductive Event where
  | setup (p : Part) (e : Ending)
  | enter (c : Caller)
  | run (k : Closer) (o : Outcome)
  | returned (c : Caller) (err : Option Closer)
deriving DecidableEq

/-- A call on nothing panics. `http.Server.Shutdown` may fail, but nobody
looks at its error. -/
def Closer.may (s : State) (call : Call) : Closer → Outcome → Bool
  | leave, o => if call.bound then o ≠ .panicked else o = .panicked
  | stop, o => if s.handle .server = .unset ∨ s.handle .mux = .unset then o = .panicked else o = .ok
  | close, o => if s.handle .log = .unset then o = .panicked else o ≠ .panicked

/-- The rest of the list after `k`, or the return of its error. -/
def State.ran (s : State) (call : Call) (k : Closer) (rest : List Closer) : Outcome → State
  | .ok => { s with
      handle := fun p => if p ∈ k.parts then .down else s.handle p
      inside := some { call with todo := rest } }
  | .failed => { s with inside := some { call with todo := [], err := some k } }
  | .panicked => { s with panicked := true }

/-- Nothing happens any more once a goroutine has panicked. -/
inductive Step : State → Event → State → Prop where
  | setup {s : State} {p : Part} {todo : List Part} : s.panicked = false →
      s.new = .running (p :: todo) →
      Step s (.setup p .ok) (s.setup p .up (if todo = [] then .returned else .running todo))
  | setupFailed {s : State} {p : Part} {todo : List Part} {set : Bool} : s.panicked = false →
      s.new = .running (p :: todo) → (set = true → p.mayFailSet = true) →
      Step s (.setup p (.failed set)) (s.setup p (if set then .up else .unset) .failed)
  -- `close(a.shutdownCh)` panics if it is closed
  | enter {s : State} {c : Caller} : s.panicked = false → s.calls c = true → s.inside = none →
      s.shutdown = false →
      Step s (.enter c) { s with
        shutdown := true
        shutdownCh := true
        inside := some ⟨c, s.handle .membership ≠ .unset, closers, none⟩
        panicked := s.shutdownCh }
  | refused {s : State} {c : Caller} : s.panicked = false → s.calls c = true → s.inside = none →
      s.shutdown = true → Step s (.returned c none) s
  | run {s : State} {call : Call} {k : Closer} {rest : List Closer} {o : Outcome} :
      s.panicked = false → s.inside = some call → call.todo = k :: rest →
      k.may s call o = true → Step s (.run k o) (s.ran call k rest o)
  | leave {s : State} {c : Caller} {bound : Bool} {err : Option Closer} :
      s.panicked = false → s.inside = some ⟨c, bound, [], err⟩ →
      Step s (.returned c err) { s with inside := none }

/-! ## What a run has called -/

def Event.closer? : Event → Option (Closer × Outcome)
  | .run k o => some (k, o)
  | .setup _ _ | .enter _ | .returned _ _ => none

def Event.error? : Event → Option Closer
  | .returned _ err => err
  | .setup _ _ | .enter _ | .run _ _ => none

/-- The functions that `Shutdown` has called. -/
def runs (es : List Event) : List (Closer × Outcome) := es.filterMap Event.closer?

/-- The errors that calls of `Shutdown` have returned. -/
def errors (es : List Event) : List Closer := es.filterMap Event.error?

@[simp] theorem runs_concat (es : List Event) (e : Event) :
    runs (es ++ [e]) = runs es ++ e.closer?.toList := by
  unfold runs
  rw [List.filterMap_append]
  cases h : e.closer? <;> simp [h]

@[simp] theorem errors_concat (es : List Event) (e : Event) :
    errors (es ++ [e]) = errors es ++ e.error?.toList := by
  unfold errors
  rw [List.filterMap_append]
  cases h : e.error? <;> simp [h]

/-- How far one call has come: all has gone well so far, or the last of the
functions has returned an error. -/
inductive Ran : List (Closer × Outcome) → List Closer → Option Closer → Prop where
  | upTo {done todo : List Closer} : closers = done ++ todo →
      Ran (done.map (·, .ok)) todo none
  | failed {done todo : List Closer} {k : Closer} : closers = done ++ k :: todo →
      Ran (done.map (·, .ok) ++ [(k, .failed)]) [] (some k)

namespace Ran

variable {rs : List (Closer × Outcome)} {k : Closer} {todo rest : List Closer}
  {err : Option Closer}

theorem start : Ran [] closers none :=
  have h : Ran (([] : List Closer).map (·, .ok)) closers none := .upTo rfl
  h

theorem todo_of_nil (h : Ran [] todo err) : todo = closers := by
  generalize hrs : ([] : List (Closer × Outcome)) = rs at h
  cases h with
  | upTo h => rw [h, List.map_eq_nil_iff.mp hrs.symm, List.nil_append]
  | failed => exact absurd hrs.symm (by simp)

theorem not_panicked (h : Ran rs todo err) : ∀ x ∈ rs, x.2 ≠ .panicked := by
  have hok : ∀ {done : List Closer}, ∀ x ∈ done.map (·, Outcome.ok), x.2 ≠ .panicked := by
    intro done x hx
    obtain ⟨k, -, rfl⟩ := List.mem_map.mp hx
    nofun
  cases h with
  | upTo => exact hok
  | failed =>
      intro x hx
      rcases List.mem_append.mp hx with hx | hx
      · exact hok x hx
      · rw [List.mem_singleton.mp hx]
        nofun

theorem ok (h : Ran rs (k :: rest) err) : Ran (rs ++ [(k, .ok)]) rest err := by
  cases h with
  | @upTo done todo h =>
      have hdone : Ran ((done ++ [k]).map (·, .ok)) rest none := .upTo (by simpa using h)
      simpa using hdone

theorem fail (h : Ran rs (k :: rest) err) : Ran (rs ++ [(k, .failed)]) [] (some k) := by
  cases h with
  | upTo h => exact .failed h

/-- The functions in their order. -/
theorem order (h : Ran rs todo err) : rs.map Prod.fst <+: closers := by
  have hfst : ∀ done : List Closer, (done.map (·, Outcome.ok)).map Prod.fst = done := by
    intro done
    rw [List.map_map]
    exact List.map_id done
  cases h with
  | upTo h =>
      rw [hfst, h]
      exact List.prefix_append _ _
  | failed h =>
      rw [List.map_append, hfst, h]
      exact (List.prefix_append_right_inj _).mpr ⟨_, rfl⟩

/-- Nothing from the function on that has failed has gone well. -/
theorem not_ok_of_failed (h : Ran rs todo err) (hk : (k, .failed) ∈ rs) :
    ∀ k' ∈ closers.dropWhile (· ≠ k), (k', Outcome.ok) ∉ rs := by
  cases h with
  | upTo => simp at hk
  | @failed done todo k₀ h =>
      obtain rfl : k = k₀ := by simpa using hk
      have hnodup : (done ++ k :: todo).Nodup := h ▸ by decide
      have hdisj := List.nodup_append.mp hnodup |>.2.2
      have hdone : ∀ a ∈ done, decide (a ≠ k) = true := fun a ha =>
        decide_eq_true (hdisj a ha k List.mem_cons_self)
      rw [h, List.dropWhile_append_of_pos hdone, List.dropWhile_cons_of_neg (by simp)]
      intro k' hk' hmem
      exact hdisj k' (by simpa using hmem) k' hk' rfl

end Ran

/-! ## What is set up -/

variable {s s' : State} {e : Event} {es : List Event}

theorem cases_of_suffix {p : Part} {todo : List Part} (h : p :: todo <:+ parts) :
    p = .mux ∧ todo = [.log, .server, .membership] ∨ p = .log ∧ todo = [.server, .membership] ∨
      p = .server ∧ todo = [.membership] ∨ p = .membership ∧ todo = [] := by
  simpa [parts, List.suffix_cons_iff] using h

structure Built (s : State) : Prop where
  running : ∀ todo, s.new = .running todo →
    todo ≠ [] ∧ todo <:+ parts ∧ ∀ p, s.handle p = .unset ↔ p ∈ todo
  returned : s.new = .returned → ∀ p, s.handle p ≠ .unset
  server : s.handle .server ≠ .unset → s.handle .log ≠ .unset ∧ s.handle .mux ≠ .unset
  membership : s.handle .membership ≠ .unset → s.handle .server ≠ .unset
  inside : ∀ call, s.inside = some call → s.handle .server ≠ .unset ∧
    (call.bound = true → s.handle .membership ≠ .unset)

theorem built_start : Built start where
  running todo h := by
    cases h
    refine ⟨by decide, List.suffix_refl _, fun p => ?_⟩
    cases p <;> simp [start, parts]
  returned h := by cases h
  server h := absurd rfl h
  membership h := absurd rfl h
  inside call h := by cases h

/-- What is closed was set up before. -/
theorem Built.unset_ran (h : Built s) {call : Call} {k : Closer} {o : Outcome}
    (hin : s.inside = some call) (hmay : k.may s call o = true) (rest : List Closer) (p : Part) :
    (s.ran call k rest o).handle p = .unset ↔ s.handle p = .unset := by
  cases o with
  | failed | panicked => rfl
  | ok =>
      by_cases hp : p ∈ k.parts
      · have hset : s.handle p ≠ .unset := by
          cases k with
          | leave =>
              rw [List.mem_singleton.mp hp]
              refine (h.inside call hin).2 ?_
              by_contra hbound
              simp [Closer.may, hbound] at hmay
          | stop =>
              have hup : s.handle .server ≠ .unset ∧ s.handle .mux ≠ .unset := by
                by_contra hnot
                rw [not_and_or, not_not, not_not] at hnot
                simp [Closer.may, hnot] at hmay
              simp only [Closer.parts, List.mem_cons, List.not_mem_nil, or_false] at hp
              rcases hp with rfl | rfl
              · exact hup.1
              · exact hup.2
          | close =>
              rw [List.mem_singleton.mp hp]
              intro hlog
              simp [Closer.may, hlog] at hmay
        simp [State.ran, hp, hset]
      · simp [State.ran, hp]

theorem Built.step (h : Built s) (hs : Step s e s') : Built s' := by
  cases hs with
  | @setup p todo hrun hnew =>
      obtain ⟨-, hsuffix, hunset⟩ := h.running _ hnew
      have hset : ∀ q n, (s.setup p .up n).handle q = .unset ↔ q ∈ todo := by
        intro q n
        rcases cases_of_suffix hsuffix with ⟨rfl, rfl⟩ | ⟨rfl, rfl⟩ | ⟨rfl, rfl⟩ | ⟨rfl, rfl⟩ <;>
          cases q <;> simp [State.setup, hunset]
      have hkeep : ∀ q n, s.handle q ≠ .unset → (s.setup p .up n).handle q ≠ .unset := by
        intro q n hq hmem
        exact hq ((hunset q).mpr (List.mem_cons_of_mem _ ((hset q n).mp hmem)))
      refine ⟨fun todo' h' => ?_, fun h' q => ?_, fun hserver => ?_, fun hm => ?_,
        fun call hin => ?_⟩
      · split at h'
        · cases h'
        · next hne =>
          cases h'
          exact ⟨hne, (List.suffix_cons p _).trans hsuffix, fun q => hset q _⟩
      · split at h'
        · next hnil =>
          subst hnil
          exact fun hq => List.not_mem_nil ((hset q _).mp hq)
        · cases h'
      · rw [ne_eq, hset] at hserver
        constructor <;> rw [ne_eq, hset] <;> intro hmem <;>
        rcases cases_of_suffix hsuffix with ⟨-, rfl⟩ | ⟨-, rfl⟩ | ⟨-, rfl⟩ | ⟨-, rfl⟩ <;>
          simp at hserver hmem
      · rw [ne_eq, hset] at hm ⊢
        rcases cases_of_suffix hsuffix with ⟨-, rfl⟩ | ⟨-, rfl⟩ | ⟨-, rfl⟩ | ⟨-, rfl⟩ <;>
          simp at hm ⊢
      · obtain ⟨hserver, hbound⟩ := h.inside call hin
        exact ⟨hkeep _ _ hserver, fun hb => hkeep _ _ (hbound hb)⟩
  | @setupFailed p todo set hrun hnew hmay =>
      obtain ⟨-, hsuffix, hunset⟩ := h.running _ hnew
      have hp : s.handle p = .unset := (hunset p).mpr List.mem_cons_self
      have hkeep : ∀ q, s.handle q ≠ .unset →
          (s.setup p (if set then .up else .unset) .failed).handle q ≠ .unset := by
        intro q hq
        have hne : q ≠ p := fun heq => hq (heq ▸ hp)
        simp [State.setup, hne, hq]
      refine ⟨nofun, nofun, fun hserver => ?_, fun hm => hkeep _ ?_, fun call hin => ?_⟩
      · have hold : s.handle .server ≠ .unset := by
          intro hold
          by_cases heq : Part.server = p
          · subst heq
            cases set with
            | true => exact absurd (hmay rfl) (by decide)
            | false => exact hserver (by simp [State.setup])
          · exact hserver (by simp [State.setup, heq, hold])
        obtain ⟨hlog, hmux⟩ := h.server hold
        exact ⟨hkeep _ hlog, hkeep _ hmux⟩
      · rw [ne_eq, hunset]
        rcases cases_of_suffix hsuffix with ⟨rfl, rfl⟩ | ⟨rfl, rfl⟩ | ⟨rfl, rfl⟩ | ⟨rfl, rfl⟩ <;>
          simp [State.setup, hunset] at hm ⊢
      · obtain ⟨hserver, hbound⟩ := h.inside call hin
        exact ⟨hkeep _ hserver, fun hb => hkeep _ (hbound hb)⟩
  | @enter c _ hcalls =>
      refine ⟨h.running, h.returned, h.server, h.membership, fun call hcall => ?_⟩
      cases hcall
      refine ⟨?_, of_decide_eq_true⟩
      cases c with
      | server => exact of_decide_eq_true hcalls
      | serve | owner => exact h.returned (of_decide_eq_true hcalls) _
  | refused => exact h
  | @run call k rest o hrun hin htodo hmay =>
      have hunset := h.unset_ran hin hmay rest
      have hnew : (s.ran call k rest o).new = s.new := by cases o <;> rfl
      refine ⟨fun todo h' => ?_, fun h' p => ?_, fun hserver => ?_, fun hm => ?_,
        fun call' hin' => ?_⟩
      · rw [hnew] at h'
        simp only [hunset]
        exact h.running todo h'
      · rw [ne_eq, hunset]
        exact h.returned (hnew ▸ h') p
      · rw [ne_eq, hunset] at hserver
        rw [ne_eq, ne_eq, hunset, hunset]
        exact h.server hserver
      · rw [ne_eq, hunset] at hm ⊢
        exact h.membership hm
      · have hbound : call'.bound = call.bound := by
          cases o with
          | ok | failed =>
              cases hin'
              rfl
          | panicked =>
              rw [State.ran, hin] at hin'
              cases hin'
              rfl
        rw [hbound, ne_eq, ne_eq, hunset, hunset]
        exact h.inside call hin
  | leave => exact ⟨h.running, h.returned, h.server, h.membership, nofun⟩

theorem Built.all (h : Built s) (hm : s.handle .membership ≠ .unset) (p : Part) :
    s.handle p ≠ .unset := by
  have hserver := h.membership hm
  cases p with
  | mux => exact (h.server hserver).2
  | log => exact (h.server hserver).1
  | server => exact hserver
  | membership => exact hm

/-- What the events say of it. -/
structure Recorded (es : List Event) (s : State) : Prop where
  set : ∀ p, .setup p .ok ∈ es → s.handle p ≠ .unset
  failed : ∀ p set, .setup p (.failed set) ∈ es → s.new = .failed ∧
    (s.handle .membership ≠ .unset → p = .membership ∧ set = true)

theorem Recorded.step (hb : Built s) (h : Recorded es s) (hs : Step s e s') :
    Recorded (es ++ [e]) s' := by
  -- a step that is none of `New` changes nothing of this
  have hother : (∀ p r, e ≠ .setup p r) → s'.new = s.new →
      (∀ p, s'.handle p = .unset ↔ s.handle p = .unset) → Recorded (es ++ [e]) s' := by
    intro hne hnew hunset
    have hmem : ∀ {p r}, .setup p r ∈ es ++ [e] → .setup p r ∈ es := by
      intro p r hp
      rcases List.mem_append.mp hp with hp | hp
      · exact hp
      · exact absurd (List.mem_singleton.mp hp).symm (hne p r)
    refine ⟨fun p hp => ?_, fun p set hp => ?_⟩
    · rw [ne_eq, hunset]
      exact h.set p (hmem hp)
    · rw [hnew, ne_eq, hunset]
      exact h.failed p set (hmem hp)
  cases hs with
  | @setup p todo hrun hnew =>
      refine ⟨fun q hq => ?_, fun q set hq => ?_⟩
      · by_cases heq : q = p
        · simp [State.setup, heq]
        · simp only [State.setup, heq, if_false]
          exact h.set q (by simpa [heq] using hq)
      · have := (h.failed q set (by simpa using hq)).1
        rw [hnew] at this
        cases this
  | @setupFailed p todo set hrun hnew hmay =>
      obtain ⟨-, hsuffix, hunset⟩ := hb.running _ hnew
      refine ⟨fun q hq => ?_, fun q set' hq => ⟨rfl, fun hm => ?_⟩⟩
      · have hset := h.set q (by simpa using hq)
        have hne : q ≠ p := fun heq => hset ((hunset q).mpr (heq ▸ List.mem_cons_self))
        simp only [State.setup, hne, if_false]
        exact hset
      · rcases List.mem_append.mp hq with hq | hq
        · have := (h.failed q set' hq).1
          rw [hnew] at this
          cases this
        · obtain ⟨rfl, rfl⟩ : q = p ∧ set' = set := by simpa using hq
          -- what comes last is not set up yet
          have hlast : s.handle .membership = .unset := by
            rw [hunset]
            rcases cases_of_suffix hsuffix with ⟨rfl, rfl⟩ | ⟨rfl, rfl⟩ | ⟨rfl, rfl⟩ |
              ⟨rfl, rfl⟩ <;> simp
          by_cases heq : Part.membership = q
          · refine ⟨heq.symm, ?_⟩
            by_contra hset
            exact hm (by simp [State.setup, heq, hset])
          · exact absurd (by simp [State.setup, heq, hlast]) hm
  | enter => exact hother nofun rfl fun _ => .rfl
  | refused => exact hother nofun rfl fun _ => .rfl
  | @run call k rest o hrun hin htodo hmay =>
      exact hother nofun (by cases o <;> rfl) (hb.unset_ran hin hmay rest)
  | leave => exact hother nofun rfl fun _ => .rfl

/-! ## What is closed -/

/-- The goroutine of the server has begun to shut down before the membership
was set up. -/
def Early (es : List Event) : Prop :=
  ∃ before after, es = before ++ .enter .server :: after ∧ .setup .membership .ok ∉ before

theorem Early.concat (h : Early es) (e : Event) : Early (es ++ [e]) := by
  obtain ⟨before, after, rfl, hnot⟩ := h
  exact ⟨before, after ++ [e], by simp, hnot⟩

structure Closing (es : List Event) (s : State) : Prop where
  channel : s.shutdownCh = s.shutdown
  idle : s.shutdown = false → s.inside = none ∧ s.panicked = false ∧ runs es = [] ∧ errors es = []
  inside : s.panicked = false → ∀ call, s.inside = some call → Ran (runs es) call.todo call.err ∧
    errors es = [] ∧ (call.bound = false → runs es = [] ∧ Early es)
  left : s.shutdown = true → s.inside = none →
    ∃ err, Ran (runs es) [] err ∧ errors es = err.toList
  panicked : s.panicked = true → runs es = [(.leave, .panicked)] ∧ errors es = [] ∧ Early es
  down : ∀ p, s.handle p = .down ↔ ∃ k, (k, Outcome.ok) ∈ runs es ∧ p ∈ k.parts
  leaves : ∀ x ∈ runs es, x.2 ≠ .panicked → s.handle .membership ≠ .unset

theorem closing_start : Closing [] start where
  channel := rfl
  idle _ := ⟨rfl, rfl, rfl, rfl⟩
  inside _ call h := by cases h
  left h := by cases h
  panicked h := by cases h
  down p := by simp [start, runs]
  leaves x h := by cases h

/-- A step that is none of `Shutdown`. -/
theorem Closing.frame (h : Closing es s) (hshut : s'.shutdown = s.shutdown)
    (hch : s'.shutdownCh = s.shutdownCh) (hin : s'.inside = s.inside)
    (hpan : s'.panicked = s.panicked) (hcloser : e.closer? = none) (herror : e.error? = none)
    (hdown : ∀ p, s'.handle p = .down ↔ s.handle p = .down)
    (hset : s.handle .membership ≠ .unset → s'.handle .membership ≠ .unset) :
    Closing (es ++ [e]) s' := by
  have hruns : runs (es ++ [e]) = runs es := by simp [hcloser]
  have herrors : errors (es ++ [e]) = errors es := by simp [herror]
  constructor
  · rw [hch, hshut, h.channel]
  · rw [hshut, hin, hpan, hruns, herrors]
    exact h.idle
  · rw [hpan, hin, hruns, herrors]
    intro hrun call hcall
    obtain ⟨hran, herr, hbound⟩ := h.inside hrun call hcall
    exact ⟨hran, herr, fun hb => ⟨(hbound hb).1, (hbound hb).2.concat e⟩⟩
  · rw [hshut, hin, hruns, herrors]
    exact h.left
  · rw [hpan, hruns, herrors]
    intro hp
    obtain ⟨hr, herr, hearly⟩ := h.panicked hp
    exact ⟨hr, herr, hearly.concat e⟩
  · intro p
    rw [hdown, hruns]
    exact h.down p
  · rw [hruns]
    exact fun x hx hne => hset (h.leaves x hx hne)

theorem Closing.enter (hb : Built s) (hr : Recorded es s) (h : Closing es s) {c : Caller}
    (hcalls : s.calls c = true) (hshut : s.shutdown = false) :
    Closing (es ++ [.enter c]) { s with
      shutdown := true
      shutdownCh := true
      inside := some ⟨c, s.handle .membership ≠ .unset, closers, none⟩
      panicked := s.shutdownCh } := by
  obtain ⟨-, -, hruns, herrors⟩ := h.idle hshut
  have hruns' : runs (es ++ [.enter c]) = [] := by simp [hruns, Event.closer?]
  have herrors' : errors (es ++ [.enter c]) = [] := by simp [herrors, Event.error?]
  refine ⟨rfl, nofun, fun _ call hcall => ?_, nofun, fun hp => ?_, fun p => ?_, ?_⟩
  · cases hcall
    rw [hruns', herrors']
    refine ⟨.start, rfl, fun hbound => ⟨rfl, ?_⟩⟩
    have hunset : s.handle .membership = .unset := by
      by_contra hset
      simp [hset] at hbound
    -- the others call only once `New` has returned
    have hserver : c = .server := by
      cases c with
      | server => rfl
      | serve | owner => exact absurd hunset (hb.returned (of_decide_eq_true hcalls) _)
    subst hserver
    exact ⟨es, [], rfl, fun hmem => hr.set _ hmem hunset⟩
  · rw [h.channel, hshut] at hp
    cases hp
  · rw [hruns', ← hruns]
    exact h.down p
  · rw [hruns']
    nofun

/-- Only `Leave` may panic, and it does if the membership was not there. -/
theorem Closing.panicked_iff (hb : Built s) (h : Closing es s) {call : Call} {k : Closer}
    {rest : List Closer} {o : Outcome} (hrun : s.panicked = false) (hin : s.inside = some call)
    (htodo : call.todo = k :: rest) (hmay : k.may s call o = true) :
    (o = .panicked ↔ call.bound = false) ∧ (o = .panicked → k = .leave) := by
  obtain ⟨hran, -, hbound⟩ := h.inside hrun call hin
  have hset := (hb.inside call hin).1
  have hother := hb.server hset
  cases k with
  | leave =>
      refine ⟨?_, fun _ => rfl⟩
      cases hc : call.bound <;> simpa [Closer.may, hc] using hmay
  | stop | close =>
      have hok : o ≠ .panicked := by
        rintro rfl
        simp [Closer.may, hset, hother] at hmay
      refine ⟨⟨fun ho => absurd ho hok, fun hc => ?_⟩, fun ho => absurd ho hok⟩
      -- `Leave` comes first
      have hall := ((hbound hc).1 ▸ hran).todo_of_nil
      rw [htodo] at hall
      cases hall

theorem Closing.run (hb : Built s) (h : Closing es s) {call : Call} {k : Closer}
    {rest : List Closer} {o : Outcome} (hrun : s.panicked = false) (hin : s.inside = some call)
    (htodo : call.todo = k :: rest) (hmay : k.may s call o = true) :
    Closing (es ++ [.run k o]) (s.ran call k rest o) := by
  obtain ⟨hran, herr, hbound⟩ := h.inside hrun call hin
  obtain ⟨hpan, hleave⟩ := h.panicked_iff hb hrun hin htodo hmay
  have hruns : runs (es ++ [.run k o]) = runs es ++ [(k, o)] := by simp [Event.closer?]
  have herrors : errors (es ++ [.run k o]) = [] := by simp [Event.error?, herr]
  have hshut : s.shutdown = true := by
    by_contra hshut
    rw [(h.idle (eq_false_of_ne_true hshut)).1] at hin
    cases hin
  have hset : o ≠ .panicked → (s.ran call k rest o).handle .membership ≠ .unset := by
    intro ho
    rw [ne_eq, hb.unset_ran hin hmay]
    refine (hb.inside call hin).2 ?_
    by_contra hc
    exact ho (hpan.mpr (eq_false_of_ne_true hc))
  rw [htodo] at hran
  cases o with
  | ok =>
      refine ⟨h.channel, fun hs => ?_, fun _ call' hin' => ?_, fun _ hs => ?_, fun hp => ?_,
        fun p => ?_, fun _ _ _ => hset nofun⟩
      · exact absurd (hshut.symm.trans hs) nofun
      · cases hin'
        rw [hruns, herrors]
        exact ⟨hran.ok, rfl, fun hc => absurd (hpan.mpr hc) nofun⟩
      · cases hs
      · exact absurd (hrun.symm.trans hp) nofun
      · rw [hruns]
        by_cases hp : p ∈ k.parts
        · simp only [State.ran, hp, if_true, true_iff]
          exact ⟨k, by simp, hp⟩
        · simp only [State.ran, hp, if_false, h.down, List.mem_append, List.mem_singleton,
            Prod.mk.injEq, and_true]
          constructor
          · rintro ⟨k', hk', hp'⟩
            exact ⟨k', .inl hk', hp'⟩
          · rintro ⟨k', hk' | rfl, hp'⟩
            · exact ⟨k', hk', hp'⟩
            · exact absurd hp' hp
  | failed =>
      refine ⟨h.channel, fun hs => ?_, fun _ call' hin' => ?_, fun _ hs => ?_, fun hp => ?_,
        fun p => ?_, fun _ _ _ => hset nofun⟩
      · exact absurd (hshut.symm.trans hs) nofun
      · cases hin'
        rw [hruns, herrors]
        exact ⟨hran.fail, rfl, fun hc => absurd (hpan.mpr hc) nofun⟩
      · cases hs
      · exact absurd (hrun.symm.trans hp) nofun
      · rw [hruns]
        simpa [State.ran] using h.down p
  | panicked =>
      obtain ⟨hnil, hearly⟩ := hbound (hpan.mp rfl)
      rw [hleave rfl, hnil] at hruns
      refine ⟨h.channel, fun hs => ?_, nofun, fun _ hs => ?_, fun _ => ?_, fun p => ?_, ?_⟩
      · exact absurd (hshut.symm.trans hs) nofun
      · rw [State.ran, hin] at hs
        cases hs
      · rw [hleave rfl, hruns]
        exact ⟨rfl, hleave rfl ▸ herrors, hearly.concat _⟩
      · rw [hleave rfl, hruns]
        simpa [State.ran, hnil] using h.down p
      · rw [hleave rfl, hruns]
        intro x hx hne
        rw [List.mem_singleton.mp hx] at hne
        exact absurd rfl hne

theorem Closing.step (hb : Built s) (hr : Recorded es s) (h : Closing es s) (hs : Step s e s') :
    Closing (es ++ [e]) s' := by
  -- what is set up was not there before
  have hnew : ∀ {p : Part} {todo : List Part}, s.new = .running (p :: todo) →
      s.handle p = .unset := fun hnew => ((hb.running _ hnew).2.2 _).mpr List.mem_cons_self
  have hsetup : ∀ {p : Part} {todo : List Part} {hd : Handle} {new : Progress} {r : Ending},
      s.new = .running (p :: todo) → hd ≠ .down →
      Closing (es ++ [.setup p r]) (s.setup p hd new) := by
    intro p todo hd new r hrunning hne
    have hp := hnew hrunning
    refine h.frame rfl rfl rfl rfl rfl rfl (fun q => ?_) fun hm => ?_
    · by_cases heq : q = p
      · simp [State.setup, heq, hp, hne]
      · simp [State.setup, heq]
    · have hq : Part.membership ≠ p := fun heq => hm (heq ▸ hp)
      simp [State.setup, hq, hm]
  cases hs with
  | setup _ hrunning => exact hsetup hrunning nofun
  | @setupFailed _ _ set _ hrunning => exact hsetup hrunning (by cases set <;> decide)
  | enter _ hcalls _ hshut => exact h.enter hb hr hcalls hshut
  | refused => exact h.frame rfl rfl rfl rfl rfl rfl (fun _ => .rfl) id
  | run hrun hin htodo hmay => exact h.run hb hrun hin htodo hmay
  | @leave c bound err hrun hin =>
      obtain ⟨hran, herr, -⟩ := h.inside hrun _ hin
      have hruns : runs (es ++ [.returned c err]) = runs es := by simp [Event.closer?]
      refine ⟨h.channel, fun hs => ?_, nofun, fun _ _ => ⟨err, ?_, ?_⟩, fun hp => ?_,
        fun p => ?_, fun x hx => ?_⟩
      · rw [(h.idle hs).1] at hin
        cases hin
      · rw [hruns]
        exact hran
      · simp [Event.error?, herr]
      · exact absurd (hrun.symm.trans hp) nofun
      · rw [hruns]
        exact h.down p
      · rw [hruns] at hx
        exact h.leaves x hx

/-! ## Runs -/

theorem invariants (htr : Trace Step start es s) : Built s ∧ Recorded es s ∧ Closing es s := by
  induction htr with
  | init => exact ⟨built_start, ⟨nofun, nofun⟩, closing_start⟩
  | snoc _ hs ih =>
      obtain ⟨hb, hr, hc⟩ := ih
      exact ⟨hb.step hs, hr.step hb hs, hc.step hb hr hs⟩

/-- One call has come some way and has returned what it found, or it has
panicked at once. -/
theorem Closing.cases (h : Closing es s) :
    (∃ todo err, Ran (runs es) todo err ∧ (errors es).length ≤ 1) ∨
      runs es = [(.leave, .panicked)] ∧ errors es = [] ∧ Early es := by
  cases hpan : s.panicked with
  | true => exact .inr (h.panicked hpan)
  | false =>
      left
      cases hshut : s.shutdown with
      | false =>
          obtain ⟨-, -, hruns, herrors⟩ := h.idle hshut
          rw [hruns, herrors]
          exact ⟨_, _, .start, Nat.zero_le _⟩
      | true =>
          cases hin : s.inside with
          | none =>
              obtain ⟨err, hran, herrors⟩ := h.left hshut hin
              rw [herrors]
              exact ⟨_, _, hran, Option.length_toList_le⟩
          | some call =>
              obtain ⟨hran, herrors, -⟩ := h.inside hpan call hin
              rw [herrors]
              exact ⟨_, _, hran, Nat.zero_le _⟩

/-- **`Shutdown` does its work once.** In any order of the steps of `New`, of
the goroutines and of any callers, its functions are called in their order,
each at most once, and one call at most returns an error. The parts that are
down are those of the functions that have returned nil. When a function
fails, its parts and those after it stay up for good. Only `Leave` panics,
and only where the goroutine of the server was early. -/
theorem shutdown_runs_once (htr : Trace Step start es s) :
    (runs es).map Prod.fst <+: closers ∧ (errors es).length ≤ 1 ∧
      (∀ p, s.handle p = .down ↔ ∃ k, (k, .ok) ∈ runs es ∧ p ∈ k.parts) ∧
      (∀ k, (k, .failed) ∈ runs es →
        ∀ p ∈ (closers.dropWhile (· ≠ k)).flatMap Closer.parts, s.handle p = .up) ∧
      ∀ k, (k, .panicked) ∈ runs es → k = .leave ∧ Early es := by
  obtain ⟨hb, -, hc⟩ := invariants htr
  rcases hc.cases with ⟨todo, err, hran, herrors⟩ | ⟨hruns, herrors, hearly⟩
  · refine ⟨hran.order, herrors, hc.down, fun k hk p hp => ?_, fun k hk => ?_⟩
    · obtain ⟨k', hk', hp⟩ := List.mem_flatMap.mp hp
      have hset := hb.all (hc.leaves _ hk nofun) p
      have hdown : s.handle p ≠ .down := by
        rw [ne_eq, hc.down]
        rintro ⟨k'', hk'', hp''⟩
        rw [mem_parts.mp hp'', ← mem_parts.mp hp] at hk''
        exact hran.not_ok_of_failed hk k' hk' hk''
      cases hh : s.handle p with
      | unset => exact absurd hh hset
      | up => rfl
      | down => exact absurd hh hdown
    · exact absurd rfl (hran.not_panicked _ hk)
  · refine ⟨?_, by simp [herrors], hc.down, fun k hk => ?_, fun k hk => ?_⟩
    · rw [hruns]
      decide
    · simp [hruns] at hk
    · rw [hruns, List.mem_singleton, Prod.mk.injEq] at hk
      exact ⟨hk.1, hearly⟩

/-- `Leave` fails, and the next `Shutdown` has nothing to say. -/
theorem trace_leave_failed : ∃ s, Trace Step start
    [.setup .mux .ok, .setup .log .ok, .setup .server .ok, .setup .membership .ok,
      .enter (.owner 0), .run .leave .failed, .returned (.owner 0) (some .leave),
      .returned .serve none] s :=
  ⟨_, (((((((Trace.init.snoc (.setup rfl rfl)).snoc (.setup rfl rfl)).snoc
    (.setup rfl rfl)).snoc (.setup rfl rfl)).snoc (.enter rfl rfl rfl rfl)).snoc
    (.run rfl rfl rfl rfl)).snoc (.leave rfl rfl)).snoc (.refused rfl rfl rfl rfl)⟩

theorem shutdown_runs_once_leave_failed : ∃ s, Trace Step start
      [.setup .mux .ok, .setup .log .ok, .setup .server .ok, .setup .membership .ok,
        .enter (.owner 0), .run .leave .failed, .returned (.owner 0) (some .leave),
        .returned .serve none] s ∧ s.handle .server = .up ∧ s.handle .log = .up := by
  obtain ⟨s, htr⟩ := trace_leave_failed
  have hup := (shutdown_runs_once htr).2.2.2.1 .leave (by decide)
  exact ⟨s, htr, hup .server (by decide), hup .log (by decide)⟩

/-- Unless it is serf that could not join the others, nothing that `New` has
set up is ever closed: only the goroutine of the server can call `Shutdown`,
and `Leave` panics. -/
theorem failed_new_leaks (htr : Trace Step start es s) {p : Part} {set : Bool}
    (hfail : .setup p (.failed set) ∈ es) (hne : ¬ (p = .membership ∧ set = true)) :
    (∀ q, s.handle q ≠ .down) ∧ (∀ q, .setup q .ok ∈ es → s.handle q = .up) ∧
      (∀ c, s.calls c = true → c = .server) ∧ ∀ x ∈ runs es, x = (.leave, .panicked) := by
  obtain ⟨hb, hr, hc⟩ := invariants htr
  obtain ⟨hnew, hmembership⟩ := hr.failed p set hfail
  have hunset : s.handle .membership = .unset := by
    by_contra hset
    exact hne (hmembership hset)
  have hruns : ∀ x ∈ runs es, x = (.leave, .panicked) := by
    intro x hx
    rcases hc.cases with ⟨_, _, hran, -⟩ | ⟨hruns, -⟩
    · exact absurd hunset (hc.leaves x hx (hran.not_panicked x hx))
    · rw [hruns] at hx
      exact List.mem_singleton.mp hx
  have hdown : ∀ q, s.handle q ≠ .down := by
    intro q
    rw [ne_eq, hc.down]
    rintro ⟨k, hk, -⟩
    cases hruns _ hk
  refine ⟨hdown, fun q hq => ?_, fun c hcalls => ?_, hruns⟩
  · cases hh : s.handle q with
    | unset => exact absurd hh (hr.set q hq)
    | up => rfl
    | down => exact absurd hh (hdown q)
  · cases c with
    | server => rfl
    | serve | owner => exact absurd (of_decide_eq_true hcalls) (by rw [hnew]; nofun)

/-- There is no leader in time, and the port is not free until the process ends. -/
theorem failed_new_leaks_no_leader :
    ∃ s, Trace Step start [.setup .mux .ok, .setup .log (.failed true)] s ∧
      s.handle .mux = .up := by
  have htr := (Trace.init.snoc (.setup rfl rfl : Step start _ _)).snoc
    (.setupFailed rfl rfl fun _ => rfl : Step _ (.setup .log (.failed true)) _)
  exact ⟨_, htr, (failed_new_leaks htr (List.mem_append_right _ (List.mem_singleton_self _))
    (by decide)).2.1 .mux (List.mem_cons_self)⟩

end DistributedLog.Agent
