import DistributedLog.Pipeline
import DistributedLog.Record
import DistributedLog.Trace
import Mathlib.Logic.Function.Basic

/-!
# The replicator

`replicator.Replicator` copies what other servers hold to the local one: for
every server that joins, `replicate` consumes its log from offset 0 on in one
goroutine and produces to the local server in another, with a channel of 16
records in between. `Join`, `Leave` and `Close` hold the mutex throughout, so
each is one step; the goroutines take theirs in between.

A channel that is only ever closed is a `Bool`, and a nil one or a nil map is
`none`. The replicator never looks into a record.
-/

namespace DistributedLog

inductive Phase where
  | connecting
  | running
  | returned
deriving DecidableEq

/-- A call of `replicate`, and the goroutine that it starts. -/
structure Replication (ρ : Type) where
  name : String
  addr : String
  -- `leave` is closed
  left : Bool
  phase : Phase
  -- the goroutine that receives has not returned
  receiving : Bool
  pipe : Pipe ρ 16

structure Replicator (ρ : Type) where
  tls : Bool
  -- the leave channel of a server, by the replication that it was made for
  servers : Option (String → Option Nat)
  closed : Bool
  closeChan : Option Bool
  replications : List (Replication ρ)

variable {ρ : Type}

namespace Replicator

def start (tls : Bool) : Replicator ρ := ⟨tls, none, false, none, []⟩

def init (r : Replicator ρ) : Replicator ρ :=
  { r with
    servers := some (r.servers.getD fun _ => none)
    closeChan := some (r.closeChan.getD false) }

def lookup (r : Replicator ρ) (name : String) : Option Nat := r.servers.bind fun m => m name

/-- What `replicate` connects to. -/
def target (r : Replicator ρ) (addr : String) : String :=
  if r.tls then "https://" ++ addr else "http://" ++ addr

/-- A new leave channel for a server, and the goroutine that gets it. -/
def add (r : Replicator ρ) (name addr : String) : Replicator ρ :=
  { r with
    servers := r.servers.map fun m => Function.update m name (some r.replications.length)
    replications := r.replications ++ [⟨name, r.target addr, false, .connecting, false, .empty⟩] }

/-- The channel is closed and forgotten. -/
def drop (r : Replicator ρ) (name : String) (i : Nat) (w : Replication ρ) : Replicator ρ :=
  { r with
    servers := r.servers.map fun m => Function.update m name none
    replications := r.replications.set i { w with left := true } }

def join (r : Replicator ρ) (name addr : String) : Result Unit × Replicator ρ :=
  let r := r.init
  if r.closed then (.ok (), r)
  else
    match r.lookup name, r.servers with
    | some _, _ => (.ok (), r)
    | none, some _ => (.ok (), r.add name addr)
    -- assignment to an entry of a nil map
    | none, none => (.error .panic, r)

def leave (r : Replicator ρ) (name : String) : Result Unit × Replicator ρ :=
  let r := r.init
  match r.lookup name with
  | none => (.ok (), r)
  | some i =>
      match r.replications[i]? with
      | none => (.error .panic, r)
      | some w =>
          -- closing a channel for the second time
          if w.left then (.error .panic, r) else (.ok (), r.drop name i w)

def close (r : Replicator ρ) : Result Unit × Replicator ρ :=
  let r := r.init
  if r.closed then (.ok (), r)
  else
    match r.closeChan with
    | some false => (.ok (), { r with closed := true, closeChan := some true })
    | some true | none => (.error .panic, { r with closed := true })

end Replicator

namespace Replication

/-- Neither of the two goroutines has returned. -/
def Alive (w : Replication ρ) : Prop := w.phase = .running ∧ w.receiving = true

inductive Event (ρ : Type) where
  -- `ConsumeStream` returns a stream, or an error
  | connected
  | refused
  | pipe (a : Pipe.Act ρ)
  -- `Receive` returns false
  | ended
  -- `Produce` returns an error
  | failed
  | stopped

/-- Which of the goroutines goes on. To take a record is to call `Produce`,
to deliver it is that the call succeeds. -/
def may (w : Replication ρ) : Pipe.Act ρ → Prop
  | .receive _ | .send => w.receiving = true
  | .take _ | .deliver _ => w.phase = .running

/-- A `select` takes any case that is ready, so a replication that has been
told to stop may go on for a while. -/
inductive Step (closing : Bool) : Replication ρ → Event ρ → Replication ρ → Prop where
  | connected {w : Replication ρ} : w.phase = .connecting →
      Step closing w .connected { w with phase := .running, receiving := true }
  | refused {w : Replication ρ} : w.phase = .connecting →
      Step closing w .refused { w with phase := .returned }
  | pipe {w : Replication ρ} {a : Pipe.Act ρ} {p : Pipe ρ 16} : w.pipe.Step a p → w.may a →
      Step closing w (.pipe a) { w with pipe := p }
  | ended {w : Replication ρ} : w.receiving = true → w.pipe.waiting = none →
      Step closing w .ended { w with receiving := false }
  | failed {w : Replication ρ} {x : ρ} : w.phase = .running → w.pipe.inHand = some x →
      Step closing w .failed { w with phase := .returned }
  | stopped {w : Replication ρ} : w.phase = .running → w.pipe.inHand = none →
      closing = true ∨ w.left = true → Step closing w .stopped { w with phase := .returned }

variable {closing : Bool} {w w' : Replication ρ} {e : Event ρ}

theorem Step.name (h : Step closing w e w') : w'.name = w.name ∧ w'.left = w.left := by
  cases h <;> exact ⟨rfl, rfl⟩

theorem Step.pipe_cases (h : Step closing w e w') :
    (∀ a, e ≠ .pipe a) ∧ w'.pipe = w.pipe ∨ ∃ a, e = .pipe a ∧ w.pipe.Step a w'.pipe := by
  cases h with
  | pipe hp => exact .inr ⟨_, rfl, hp⟩
  | connected | refused | ended | failed | stopped => exact .inl ⟨fun _ h => (by cases h), rfl⟩

theorem Step.pipe_step {a : Pipe.Act ρ} (h : Step closing w (.pipe a) w') :
    w.pipe.Step a w'.pipe := by
  rcases h.pipe_cases with ⟨hne, -⟩ | ⟨a', ha, hp⟩
  · exact absurd rfl (hne a)
  · cases ha
    exact hp

/-- Once it has returned it takes no more. -/
theorem Step.returned (h : Step closing w e w') (hret : w.phase = .returned) :
    w'.phase = .returned ∧ w'.pipe.taken = w.pipe.taken := by
  cases h with
  | connected hphase | refused hphase | failed hphase | stopped hphase =>
      rw [hret] at hphase
      cases hphase
  | ended => exact ⟨hret, rfl⟩
  | pipe hp hmay =>
      refine ⟨hret, ?_⟩
      cases hp with
      | receive | send => rfl
      | take | deliver => cases hret.symm.trans hmay

/-- The goroutine that receives then gets as far as a full channel. -/
theorem Step.not_blocked (h : Step closing w e w') (hret : w.phase = .returned)
    (hfull : w.pipe.buffer.length = 16) : w.pipe.waiting = none := by
  cases h with
  | connected hphase | refused hphase | failed hphase | stopped hphase =>
      rw [hret] at hphase
      cases hphase
  | ended _ hwait => exact hwait
  | pipe hp hmay =>
      cases hp with
      | receive _ hwait => exact hwait
      | send _ hroom => exact absurd hfull (Nat.ne_of_lt hroom)
      | take | deliver => cases hret.symm.trans hmay

end Replication

namespace Replicator

inductive Event (ρ : Type) where
  | join (name addr : String)
  | leave (name : String)
  | close
  | replication (i : Nat) (e : Replication.Event ρ)

inductive Step : Replicator ρ → Event ρ → Replicator ρ → Prop where
  | join (r : Replicator ρ) (name addr : String) : Step r (.join name addr) (r.join name addr).2
  | leave (r : Replicator ρ) (name : String) : Step r (.leave name) (r.leave name).2
  | close (r : Replicator ρ) : Step r .close r.close.2
  | replication {r : Replicator ρ} {i : Nat} {w w' : Replication ρ} {e : Replication.Event ρ} :
      r.replications[i]? = some w → Replication.Step (r.closeChan.getD false) w e w' →
      Step r (.replication i e) { r with replications := r.replications.set i w' }

/-! ## What a step does -/

section calls

variable (r : Replicator ρ) (name : String)

theorem lookup_init : r.init.lookup = r.lookup := by
  funext name
  cases hs : r.servers <;> simp [init, lookup, hs]

theorem lookup_update_init (v : Option Nat) (ws : List (Replication ρ)) :
    ({ r.init with
      servers := r.init.servers.map fun m => Function.update m name v
      replications := ws } : Replicator ρ).lookup = Function.update r.lookup name v := by
  rw [← r.lookup_init]
  funext name'
  by_cases hname : name' = name
  · subst hname
    simp [lookup, init]
  · simp [lookup, init, hname]

/-- Only an unknown server is joined, and not once the replicator is closed. -/
theorem join_cases (addr : String) :
    (r.join name addr = (.ok (), r.init) ∧ (r.closed = true ∨ ∃ i, r.lookup name = some i)) ∨
    r.join name addr = (.ok (), r.init.add name addr) ∧ r.closed = false ∧
      r.lookup name = none := by
  have hinit : r.init.closed = r.closed := rfl
  have hserv : r.init.servers = some (r.servers.getD fun _ => none) := rfl
  cases hclosed : r.closed with
  | true =>
      refine .inl ⟨?_, .inl rfl⟩
      simp only [join, hinit, hclosed, if_true]
  | false =>
      cases hlook : r.lookup name with
      | some i =>
          refine .inl ⟨?_, .inr ⟨i, rfl⟩⟩
          simp only [join, hinit, hclosed, lookup_init, hlook, Bool.false_eq_true, if_false]
      | none =>
          refine .inr ⟨?_, rfl, rfl⟩
          simp only [join, hinit, hclosed, lookup_init, hlook, hserv, Bool.false_eq_true, if_false]

/-- A server that is known is left, unless its channel is closed already. -/
theorem leave_cases :
    (∃ res, r.leave name = (res, r.init) ∧ (res = .ok () ∧ r.lookup name = none ∨
      ∃ i, r.lookup name = some i ∧ ∀ w, r.replications[i]? = some w → w.left = true)) ∨
    ∃ i w, r.leave name = (.ok (), r.init.drop name i w) ∧ r.lookup name = some i ∧
      r.replications[i]? = some w ∧ w.left = false := by
  have hinit : r.init.replications = r.replications := rfl
  cases hlook : r.lookup name with
  | none => exact .inl ⟨.ok (), by simp only [leave, lookup_init, hlook], .inl ⟨rfl, rfl⟩⟩
  | some i =>
      cases hw : r.replications[i]? with
      | none =>
          refine .inl ⟨.error .panic, by simp only [leave, lookup_init, hlook, hinit, hw], ?_⟩
          exact .inr ⟨i, rfl, fun w hw' => by rw [hw] at hw'; cases hw'⟩
      | some w =>
          cases hleft : w.left with
          | true =>
              refine .inl ⟨.error .panic, ?_, .inr ⟨i, rfl, fun w' hw' => ?_⟩⟩
              · simp only [leave, lookup_init, hlook, hinit, hw, hleft, if_true]
              · rw [hw, Option.some.injEq] at hw'
                exact hw' ▸ hleft
          | false =>
              refine .inr ⟨i, w, ?_, rfl, hw, hleft⟩
              simp only [leave, lookup_init, hlook, hinit, hw, hleft, Bool.false_eq_true, if_false]

theorem close_lookup : r.close.2.lookup = r.lookup ∧ r.close.2.replications = r.replications := by
  rw [← r.lookup_init]
  cases hclosed : r.closed with
  | true => simp [close, init, hclosed]
  | false =>
      cases hchan : r.closeChan.getD false <;>
        exact ⟨by funext name; simp [close, init, hclosed, hchan, lookup],
          by simp [close, init, hclosed, hchan]⟩

end calls

/-- What a step does to the servers and the replications. -/
inductive Effect (r r' : Replicator ρ) : Event ρ → Prop where
  | quiet {e : Event ρ} : (∀ i e', e ≠ .replication i e') → r'.lookup = r.lookup →
      r'.replications = r.replications → Effect r r' e
  | joined {name addr : String} : r.closed = false → r.lookup name = none →
      r'.lookup = Function.update r.lookup name (some r.replications.length) →
      r'.replications =
        r.replications ++ [⟨name, r.target addr, false, .connecting, false, .empty⟩] →
      Effect r r' (.join name addr)
  | left {name : String} {i : Nat} {w : Replication ρ} : r.lookup name = some i →
      r.replications[i]? = some w → r'.lookup = Function.update r.lookup name none →
      r'.replications = r.replications.set i { w with left := true } →
      Effect r r' (.leave name)
  | replication {closing : Bool} {i : Nat} {w w' : Replication ρ} {e : Replication.Event ρ} :
      r.replications[i]? = some w → Replication.Step closing w e w' → r'.lookup = r.lookup →
      r'.replications = r.replications.set i w' → Effect r r' (.replication i e)

variable {r r' : Replicator ρ} {e : Event ρ} {i : Nat} {w w' : Replication ρ}

theorem Step.effect (h : Step r e r') : Effect r r' e := by
  cases h with
  | join name addr =>
      rcases r.join_cases name addr with ⟨heq, -⟩ | ⟨heq, hclosed, hlook⟩
      · rw [heq]
        exact .quiet (fun _ _ h => by cases h) r.lookup_init rfl
      · rw [heq]
        exact .joined hclosed hlook (r.lookup_update_init name _ _) rfl
  | leave name =>
      rcases r.leave_cases name with ⟨res, heq, -⟩ | ⟨i, w, heq, hlook, hw, -⟩
      · rw [heq]
        exact .quiet (fun _ _ h => by cases h) r.lookup_init rfl
      · rw [heq]
        exact .left hlook hw (r.lookup_update_init name _ _) rfl
  | close => exact .quiet (fun _ _ h => by cases h) r.close_lookup.1 r.close_lookup.2
  | replication hw hstep => exact .replication hw hstep rfl rfl

/-- A replication stays, and does nothing but what it does itself. -/
theorem Step.stays (h : Step r e r') (hw : r.replications[i]? = some w) :
    ∃ w', r'.replications[i]? = some w' ∧ (w' = w ∨ w' = { w with left := true } ∨
      ∃ closing e', e = .replication i e' ∧ Replication.Step closing w e' w') := by
  have hlt : i < r.replications.length := (List.getElem?_eq_some_iff.mp hw).1
  cases h.effect with
  | quiet _ _ hrs => exact ⟨w, by rw [hrs, hw], .inl rfl⟩
  | joined _ _ _ hrs => exact ⟨w, by rw [hrs, List.getElem?_append_left hlt, hw], .inl rfl⟩
  | @left name j v _ hv _ hrs =>
      by_cases hij : j = i
      · subst hij
        obtain rfl : v = w := Option.some.inj (hv.symm.trans hw)
        exact ⟨_, by rw [hrs, List.getElem?_set_self hlt], .inr (.inl rfl)⟩
      · exact ⟨w, by rw [hrs, List.getElem?_set_ne hij, hw], .inl rfl⟩
  | @replication closing j v v' e' hv hstep _ hrs =>
      by_cases hij : j = i
      · subst hij
        obtain rfl : v = w := Option.some.inj (hv.symm.trans hw)
        exact ⟨v', by rw [hrs, List.getElem?_set_self hlt], .inr (.inr ⟨closing, e', rfl, hstep⟩)⟩
      · exact ⟨w, by rw [hrs, List.getElem?_set_ne hij, hw], .inl rfl⟩

/-! ## The servers that are known -/

/-- The replication `i` is of this server, and its leave channel is open. -/
def OpenAt (ws : List (Replication ρ)) (name : String) (i : Nat) : Prop :=
  ∃ w, ws[i]? = some w ∧ w.name = name ∧ w.left = false

theorem openAt_concat {ws : List (Replication ρ)} {name : String} (hleft : w.left = false) :
    OpenAt (ws ++ [w]) name i ↔ OpenAt ws name i ∨ i = ws.length ∧ w.name = name := by
  rcases Nat.lt_trichotomy i ws.length with hlt | rfl | hgt
  · simp only [OpenAt, List.getElem?_append_left hlt, Nat.ne_of_lt hlt, false_and, or_false]
  · simp [OpenAt, hleft]
  · have hlen : (ws ++ [w]).length ≤ i := by
      rw [List.length_append]
      exact hgt
    simp [OpenAt, List.getElem?_eq_none hlen, List.getElem?_eq_none (Nat.le_of_lt hgt),
      Nat.ne_of_gt hgt]

theorem openAt_set_self {ws : List (Replication ρ)} {name : String} (hw : ws[i]? = some w)
    (w' : Replication ρ) : OpenAt (ws.set i w') name i ↔ w'.name = name ∧ w'.left = false := by
  simp [OpenAt, List.getElem?_set_self (List.getElem?_eq_some_iff.mp hw).1]

theorem openAt_set_ne {ws : List (Replication ρ)} {name : String} {j : Nat} (hij : j ≠ i)
    (w' : Replication ρ) : OpenAt (ws.set j w') name i ↔ OpenAt ws name i := by
  simp only [OpenAt, List.getElem?_set_ne hij]

/-- The servers are those whose leave channel is open, and `closed` tells
whether the channel of `Close` is closed. -/
structure Managed (r : Replicator ρ) : Prop where
  channel : r.closeChan.getD false = r.closed
  known : ∀ name i, r.lookup name = some i ↔ OpenAt r.replications name i

theorem Managed.start (tls : Bool) : (start tls : Replicator ρ).Managed := by
  refine ⟨rfl, fun name i => ⟨fun h => ?_, fun ⟨w, hw, _⟩ => ?_⟩⟩
  · cases h
  · cases hw

theorem Managed.leave_ok (h : r.Managed) (name : String) : (r.leave name).1 = .ok () := by
  rcases r.leave_cases name with ⟨res, heq, ⟨rfl, -⟩ | ⟨i, hlook, hall⟩⟩ | ⟨i, w, heq, -⟩
  · rw [heq]
  · obtain ⟨w, hw, -, hopen⟩ := (h.known name i).mp hlook
    rw [hall w hw] at hopen
    cases hopen
  · rw [heq]

theorem Managed.close_eq (h : r.Managed) : r.close.1 = .ok () ∧ r.close.2.closed = true ∧
    r.close.2.closeChan = some true := by
  have hchan := h.channel
  cases hclosed : r.closed with
  | true =>
      rw [hclosed] at hchan
      simp [close, init, hclosed, hchan]
  | false =>
      rw [hclosed] at hchan
      simp [close, init, hclosed, hchan]

/-- A step closes the replicator if it is `Close`, and otherwise leaves it as
it is. -/
theorem Managed.closed_step (h : r.Managed) (hstep : Step r e r') :
    r'.closeChan.getD false = r'.closed ∧ (r.closed = true → r'.closed = true) ∧
      (e = .close → r'.closed = true) := by
  have hchan := h.channel
  cases hstep with
  | join name addr =>
      rcases r.join_cases name addr with ⟨heq, -⟩ | ⟨heq, -⟩
      all_goals
        rw [heq]
        exact ⟨hchan, id, fun h => (by cases h)⟩
  | leave name =>
      rcases r.leave_cases name with ⟨res, heq, -⟩ | ⟨i, w, heq, -⟩
      all_goals
        rw [heq]
        exact ⟨hchan, id, fun h => (by cases h)⟩
  | close =>
      obtain ⟨-, hclosed, hchan'⟩ := h.close_eq
      exact ⟨by rw [hchan', hclosed]; rfl, fun _ => hclosed, fun _ => hclosed⟩
  | replication hw hrep => exact ⟨hchan, id, fun h => (by cases h)⟩

theorem Managed.step (h : r.Managed) (hstep : Step r e r') : r'.Managed := by
  refine ⟨(h.closed_step hstep).1, fun name i => ?_⟩
  cases hstep.effect with
  | quiet _ hl hrs =>
      rw [hl, hrs]
      exact h.known name i
  | @joined name' addr _ hnone hl hrs =>
      rw [hl, hrs, openAt_concat rfl, ← h.known]
      by_cases hname : name = name'
      · subst hname
        simp [hnone, eq_comm]
      · simp [Function.update_of_ne hname, Ne.symm hname]
  | @left name' j v hlook hv hl hrs =>
      rw [hl, hrs]
      by_cases hij : j = i
      · subst hij
        rw [openAt_set_self hv]
        refine ⟨fun hj => ?_, fun hopen => (by cases hopen.2)⟩
        by_cases hname : name = name'
        · subst hname
          rw [Function.update_self] at hj
          cases hj
        · -- another server's channel is another one
          rw [Function.update_of_ne hname] at hj
          obtain ⟨w, hw, hn, -⟩ := (h.known name j).mp hj
          obtain ⟨w', hw', hn', -⟩ := (h.known name' j).mp hlook
          rw [hw, Option.some.injEq] at hw'
          exact absurd (by rw [← hn, hw', hn']) hname
      · rw [openAt_set_ne hij, ← h.known]
        by_cases hname : name = name'
        · subst hname
          simp [hlook, hij]
        · rw [Function.update_of_ne hname]
  | @replication closing j v v' e' hv hrep hl hrs =>
      rw [hl, hrs, h.known]
      by_cases hij : j = i
      · subst hij
        rw [openAt_set_self hv, hrep.name.1, hrep.name.2]
        simp [OpenAt, hv]
      · rw [openAt_set_ne hij]

theorem managed_run {tls : Bool} {es : List (Event ρ)} (htr : Trace Step (start tls) es r) :
    r.Managed :=
  htr.invariant (I := Managed) (.start tls) fun _ _ _ h hstep => h.step hstep

theorem closed_run {tls : Bool} {es : List (Event ρ)} (htr : Trace Step (start tls) es r)
    (hclose : .close ∈ es) : r.closed = true := by
  induction htr with
  | init => cases hclose
  | snoc htr hstep ih =>
      obtain ⟨-, hkeep, hnow⟩ := (managed_run htr).closed_step hstep
      rw [List.mem_append, List.mem_singleton] at hclose
      rcases hclose with hmem | hlast
      · exact hkeep (ih hmem)
      · exact hnow hlast.symm

/-- **The servers are managed.** Whatever is called, and however the
replications go on, no call panics, a server has one replication at most
that has not been told to leave, and after `Close` none is started. -/
theorem servers_managed (tls : Bool) {es : List (Event ρ)}
    (htr : Trace Step (start tls) es r) :
    ((∀ name addr, (r.join name addr).1 = .ok ()) ∧ (∀ name, (r.leave name).1 = .ok ()) ∧
      r.close.1 = .ok ()) ∧
    (∀ name i j, OpenAt r.replications name i → OpenAt r.replications name j → i = j) ∧
    (.close ∈ es → ∀ name addr, (r.join name addr).2.replications = r.replications) := by
  have hman := managed_run htr
  refine ⟨⟨fun name addr => ?_, hman.leave_ok, hman.close_eq.1⟩, fun name i j hi hj => ?_,
    fun hclose name addr => ?_⟩
  · rcases r.join_cases name addr with ⟨heq, -⟩ | ⟨heq, -⟩
    all_goals rw [heq]
  · rw [← hman.known] at hi hj
    exact Option.some.inj (hi.symm.trans hj)
  · rcases r.join_cases name addr with ⟨heq, -⟩ | ⟨-, hopen, -⟩
    · rw [heq]
      rfl
    · rw [closed_run htr hclose] at hopen
      cases hopen

theorem servers_managed_rejoined :
    ∃ es, ∃ r : Replicator Nat, Trace Step (start false) es r ∧ .close ∈ es ∧
      r.replications.map Replication.left = [true, false] ∧
      ((∀ name addr, (r.join name addr).1 = .ok ()) ∧ (∀ name, (r.leave name).1 = .ok ()) ∧
        r.close.1 = .ok ()) ∧
      (∀ name i j, OpenAt r.replications name i → OpenAt r.replications name j → i = j) ∧
      (.close ∈ es → ∀ name addr, (r.join name addr).2.replications = r.replications) := by
  have h₁ : Trace Step (start false : Replicator Nat) _ _ := Trace.init.snoc (.join _ "a" "h:1")
  have h₂ := h₁.snoc (.leave _ "a")
  have h₃ := h₂.snoc (.join _ "a" "h:2")
  have h₄ := h₃.snoc (.close _)
  exact ⟨_, _, h₄, by simp, rfl, servers_managed false h₄⟩

/-! ## What is produced -/

/-- What the replication `i` does to its channel. -/
def Event.act? (i : Nat) : Event ρ → Option (Pipe.Act ρ)
  | replication j (.pipe a) => if j = i then some a else none
  | replication _ _ | join _ _ | leave _ | close => none

/-- The records that the stream of a replication has brought. -/
def receipts (i : Nat) (es : List (Event ρ)) : List ρ :=
  es.filterMap fun e => (e.act? i).bind Pipe.Act.received?

/-- The records that it has called `Produce` with. -/
def produced (i : Nat) (es : List (Event ρ)) : List ρ :=
  es.filterMap fun e => (e.act? i).bind Pipe.Act.taken?

def pipeAt (r : Replicator ρ) (i : Nat) : Pipe ρ 16 :=
  (r.replications[i]?.map Replication.pipe).getD .empty

theorem Step.pipeAt (h : Step r e r') (i : Nat) :
    e.act? i = none ∧ r'.pipeAt i = r.pipeAt i ∨
      ∃ a, e.act? i = some a ∧ (r.pipeAt i).Step a (r'.pipeAt i) := by
  cases h.effect with
  | quiet hne _ hrs =>
      refine .inl ⟨?_, by rw [Replicator.pipeAt, hrs, Replicator.pipeAt]⟩
      cases e with
      | replication j e' => exact absurd rfl (hne j e')
      | join | leave | close => rfl
  | joined _ _ _ hrs =>
      refine .inl ⟨rfl, ?_⟩
      rw [Replicator.pipeAt, hrs, Replicator.pipeAt]
      rcases Nat.lt_trichotomy i r.replications.length with hlt | rfl | hgt
      · rw [List.getElem?_append_left hlt]
      · rw [List.getElem?_concat_length, List.getElem?_eq_none (Nat.le_refl _)]
        rfl
      · have hlen : ∀ w : Replication ρ, (r.replications ++ [w]).length ≤ i := fun w => by
          rw [List.length_append]
          exact hgt
        rw [List.getElem?_eq_none (hlen _), List.getElem?_eq_none (Nat.le_of_lt hgt)]
  | @left name j v _ hv _ hrs =>
      refine .inl ⟨rfl, ?_⟩
      rw [Replicator.pipeAt, hrs, Replicator.pipeAt]
      by_cases hij : j = i
      · subst hij
        rw [List.getElem?_set_self (List.getElem?_eq_some_iff.mp hv).1, hv]
        rfl
      · rw [List.getElem?_set_ne hij]
  | @replication closing j v v' e' hv hrep _ hrs =>
      rw [Replicator.pipeAt, Replicator.pipeAt, hrs]
      by_cases hij : j = i
      · subst hij
        rw [List.getElem?_set_self (List.getElem?_eq_some_iff.mp hv).1, hv]
        rcases hrep.pipe_cases with ⟨hne, hpipe⟩ | ⟨a, rfl, hpipe⟩
        · refine .inl ⟨?_, hpipe⟩
          cases e' with
          | pipe a => exact absurd rfl (hne a)
          | connected | refused | ended | failed | stopped => rfl
        · exact .inr ⟨a, if_pos rfl, hpipe⟩
      · rw [List.getElem?_set_ne hij]
        refine .inl ⟨?_, rfl⟩
        cases e' with
        | pipe a => exact if_neg hij
        | connected | refused | ended | failed | stopped => rfl

theorem pipeAt_run {tls : Bool} {es : List (Event ρ)} (htr : Trace Step (start tls) es r)
    (i : Nat) : (r.pipeAt i).received = receipts i es ∧ (r.pipeAt i).taken = produced i es := by
  induction htr with
  | init => exact ⟨rfl, rfl⟩
  | @snoc es e r r' _ hstep ih =>
      simp only [receipts, produced, List.filterMap_append] at ih ⊢
      rcases hstep.pipeAt i with ⟨hact, hpipe⟩ | ⟨a, hact, hpipe⟩
      · rw [hpipe, ih.1, ih.2]
        simp [hact]
      · rw [hpipe.received, hpipe.taken, ih.1, ih.2]
        constructor
        · cases hrec : a.received? <;> simp [hact, hrec]
        · cases htak : a.taken? <;> simp [hact, htak]

/-- **Records are produced in order.** `Produce` is called with the records
of the stream, in the order in which they came, each once and none left out;
never more than 17 of them have not come so far. -/
theorem produced_in_order (tls : Bool) {es : List (Event ρ)}
    (htr : Trace Step (start tls) es r) (i : Nat) :
    ∃ rest, receipts i es = produced i es ++ rest ∧ rest.length ≤ 17 := by
  obtain ⟨hrec, htak⟩ := pipeAt_run htr i
  refine ⟨(r.pipeAt i).buffer ++ (r.pipeAt i).waiting.toList, ?_, ?_⟩
  · rw [← hrec, ← htak, (r.pipeAt i).received_eq_taken]
  · have hbuf := (r.pipeAt i).bounded
    have hwait := Option.length_toList_le (o := (r.pipeAt i).waiting)
    rw [List.length_append]
    omega

/-- A server joins, and its stream brings two records. The first has been
produced. -/
theorem trace_produced : ∃ r : Replicator Nat, Trace Step (start false)
    [.join "a" "h:1", .replication 0 .connected, .replication 0 (.pipe (.receive 7)),
      .replication 0 (.pipe .send), .replication 0 (.pipe (.take 7)),
      .replication 0 (.pipe (.receive 8)), .replication 0 (.pipe (.deliver 7))] r := by
  have h₁ : Trace Step (start false : Replicator Nat) _ _ := Trace.init.snoc (.join _ "a" "h:1")
  have h₂ := h₁.snoc (.replication (i := 0) rfl (.connected rfl))
  have h₃ := h₂.snoc (.replication (i := 0) rfl (.pipe (.receive 7 rfl) rfl))
  have h₄ := h₃.snoc (.replication (i := 0) rfl (.pipe (.send rfl (by decide)) rfl))
  have h₅ := h₄.snoc (.replication (i := 0) rfl (.pipe (.take rfl rfl) rfl))
  have h₆ := h₅.snoc (.replication (i := 0) rfl (.pipe (.receive 8 rfl) rfl))
  exact ⟨_, h₆.snoc (.replication (i := 0) rfl (.pipe (.deliver rfl) rfl))⟩

theorem produced_in_order_two_records :
    ∃ es, ∃ r : Replicator Nat, Trace Step (start false) es r ∧ receipts 0 es = [7, 8] ∧
      produced 0 es = [7] ∧ ∃ rest, receipts 0 es = produced 0 es ++ rest ∧ rest.length ≤ 17 := by
  obtain ⟨r, htr⟩ := trace_produced
  exact ⟨_, r, htr, rfl, rfl, produced_in_order false htr 0⟩

/-! ## After the end -/

/-- Stuck with a full channel that nobody reads from any more. -/
def Blocked (w : Replication ρ) : Prop :=
  w.receiving = true ∧ w.pipe.buffer.length = 16 ∧ w.pipe.waiting.isSome = true

theorem returned_run {es : List (Event ρ)} (htr : Trace Step r es r')
    (hw : r.replications[i]? = some w) (hret : w.phase = .returned) :
    ∃ w', r'.replications[i]? = some w' ∧ w'.phase = .returned ∧ w'.pipe.taken = w.pipe.taken ∧
      (Blocked w → w'.receiving = true ∧ w'.pipe = w.pipe) := by
  induction htr with
  | init => exact ⟨w, hw, hret, rfl, fun h => ⟨h.1, rfl⟩⟩
  | snoc _ hstep ih =>
      obtain ⟨v, hv, hvret, hvtak, hblock⟩ := ih
      obtain ⟨v', hv', rfl | rfl | ⟨closing, e', rfl, hrep⟩⟩ := hstep.stays hv
      · exact ⟨v', hv', hvret, hvtak, hblock⟩
      · exact ⟨_, hv', hvret, hvtak, hblock⟩
      · obtain ⟨hvret', hvtak'⟩ := hrep.returned hvret
        refine ⟨v', hv', hvret', hvtak'.trans hvtak, fun h => ?_⟩
        obtain ⟨-, hpipe⟩ := hblock h
        have hwait := hrep.not_blocked hvret (by rw [hpipe]; exact h.2.1)
        rw [hpipe] at hwait
        have hsome := h.2.2
        rw [hwait] at hsome
        cases hsome

/-- The stream brings nothing but this record, and the goroutine that receives
it goes on. -/
def Repeats (i : Nat) (x : ρ) (es : List (Event ρ)) : Prop :=
  ∀ e ∈ es, e = .replication i (.pipe (.receive x)) ∨ e = .replication i (.pipe .send)

theorem exists_step {e : Replication.Event ρ} (hw : r.replications[i]? = some w)
    (hrep : Replication.Step (r.closeChan.getD false) w e w') :
    ∃ r', Step r (.replication i e) r' ∧ r'.replications[i]? = some w' :=
  ⟨_, .replication hw hrep, List.getElem?_set_self (List.getElem?_eq_some_iff.mp hw).1⟩

theorem exists_waiting (hw : r.replications[i]? = some w) (hrec : w.receiving = true) (x : ρ) :
    ∃ es r' w', Trace Step r es r' ∧ Repeats i x es ∧ r'.replications[i]? = some w' ∧
      w'.receiving = true ∧ w'.pipe.buffer = w.pipe.buffer ∧ w'.pipe.waiting.isSome = true := by
  cases hwait : w.pipe.waiting with
  | some y => exact ⟨[], r, w, .init, List.forall_mem_nil _, hw, hrec, rfl, by rw [hwait]; rfl⟩
  | none =>
      obtain ⟨r', hstep, hw'⟩ := exists_step hw (.pipe (.receive x hwait) hrec)
      exact ⟨_, r', _, Trace.init.snoc hstep, by simp [Repeats], hw', hrec, rfl, rfl⟩

theorem exists_blocked (hw : r.replications[i]? = some w) (hrec : w.receiving = true) (x : ρ) :
    ∃ es r' w', Trace Step r es r' ∧ Repeats i x es ∧ r'.replications[i]? = some w' ∧
      Blocked w' := by
  -- by the room that is left in the channel
  obtain ⟨n, hn⟩ : ∃ n, w.pipe.buffer.length + n = 16 := ⟨_, Nat.add_sub_of_le w.pipe.bounded⟩
  induction n generalizing r w with
  | zero =>
      obtain ⟨es, r', w', htr, hes, hw', hrec', hbuf, hwait⟩ := exists_waiting hw hrec x
      exact ⟨es, r', w', htr, hes, hw', hrec', by rw [hbuf]; exact hn, hwait⟩
  | succ n ih =>
      obtain ⟨es, r', w', htr, hes, hw', hrec', hbuf, hwait⟩ := exists_waiting hw hrec x
      obtain ⟨y, hy⟩ := Option.isSome_iff_exists.mp hwait
      have hroom : w'.pipe.buffer.length < 16 := by
        rw [hbuf]
        omega
      have hlen : (w'.pipe.send y hy hroom).buffer.length + n = 16 := by
        rw [Pipe.send, List.length_append, hbuf, List.length_singleton]
        omega
      obtain ⟨r₁, hsend, hw₁⟩ := exists_step hw' (.pipe (.send hy hroom) hrec')
      obtain ⟨es', r'', w'', htr', hes', hw'', hblock⟩ := ih hw₁ hrec' hlen
      refine ⟨_, r'', w'', (htr.snoc hsend).append htr', fun e he => ?_, hw'', hblock⟩
      rw [List.mem_append, List.mem_append, List.mem_singleton] at he
      rcases he with (hmem | rfl) | hmem
      · exact hes e hmem
      · exact .inr rfl
      · exact hes' e hmem

/-- **A replication ends for good.** Once `replicate` has returned, because
it was told to or because of an error, it never calls `Produce` again, and
what its stream still brings is lost: 17 records at most, for with the
channel full and one more in hand the goroutine that receives is blocked for
ever. A stream that brings as many gets it there. -/
theorem returned_for_good {es : List (Event ρ)} (htr : Trace Step r es r')
    (hw : r.replications[i]? = some w) (hret : w.phase = .returned) :
    ∃ w', r'.replications[i]? = some w' ∧ w'.phase = .returned ∧
      w'.pipe.taken = w.pipe.taken ∧ w'.pipe.received.length ≤ w.pipe.taken.length + 17 ∧
      (Blocked w → w'.receiving = true ∧ w'.pipe = w.pipe) ∧
      (w'.receiving = true → ∀ x, ∃ es r'' w'', Trace Step r' es r'' ∧ Repeats i x es ∧
        r''.replications[i]? = some w'' ∧ Blocked w'') := by
  obtain ⟨w', hw', hret', htak, hblock⟩ := returned_run htr hw hret
  refine ⟨w', hw', hret', htak, ?_, hblock, fun hrec x => exists_blocked hw' hrec x⟩
  have hbuf := w'.pipe.bounded
  have hwait := Option.length_toList_le (o := w'.pipe.waiting)
  rw [w'.pipe.received_eq_taken, htak, List.length_append, List.length_append]
  omega

/-- A replication that is told to leave as soon as it is connected. -/
theorem trace_left : ∃ (r : Replicator Nat) (w : Replication Nat),
    Trace Step (start false) [.join "a" "h:1", .replication 0 .connected, .leave "a",
      .replication 0 .stopped] r ∧ r.replications[0]? = some w ∧ w.phase = .returned ∧
      w.receiving = true ∧ w.pipe.waiting = none := by
  have h₁ : Trace Step (start false : Replicator Nat) _ _ := Trace.init.snoc (.join _ "a" "h:1")
  have h₂ := h₁.snoc (.replication (i := 0) rfl (.connected rfl))
  have h₃ := h₂.snoc (.leave _ "a")
  have h₄ := h₃.snoc (.replication (i := 0) rfl (.stopped rfl rfl (.inr rfl)))
  exact ⟨_, _, h₄, rfl, rfl, rfl, rfl⟩

theorem returned_for_good_left :
    ∃ (r r' : Replicator Nat) (w : Replication Nat),
      Trace Step r [.replication 0 (.pipe (.receive 7))] r' ∧ r.replications[0]? = some w ∧
      ∃ w', r'.replications[0]? = some w' ∧ w'.phase = .returned ∧
        w'.pipe.taken = w.pipe.taken ∧ w'.pipe.received.length ≤ w.pipe.taken.length + 17 ∧
        (Blocked w → w'.receiving = true ∧ w'.pipe = w.pipe) ∧
        (w'.receiving = true → ∀ x, ∃ es r'' w'', Trace Step r' es r'' ∧ Repeats 0 x es ∧
          r''.replications[0]? = some w'' ∧ Blocked w'') := by
  obtain ⟨r, w, -, hw, hret, hrec, hwait⟩ := trace_left
  have h := Trace.init.snoc (Step.replication hw (.pipe (.receive 7 hwait) hrec))
  exact ⟨r, _, w, h, hw, returned_for_good h hw hret⟩

theorem map_name_set (hw : r.replications[i]? = some w) (w' : Replication ρ)
    (hname : w'.name = w.name) :
    (r.replications.set i w').map Replication.name = r.replications.map Replication.name := by
  obtain ⟨hlt, rfl⟩ := List.getElem?_eq_some_iff.mp hw
  rw [List.map_set, hname, ← List.getElem_map Replication.name (h := by simpa using hlt),
    List.set_getElem_self]

/-- As long as `Leave` is not called a server that is known stays so, and is
not joined again. -/
theorem known_run {es : List (Event ρ)} (htr : Trace Step r es r') {name : String}
    (hlook : r.lookup name = some i) (hno : .leave name ∉ es) :
    r'.lookup name = some i ∧ ∃ new, name ∉ new ∧
      r'.replications.map Replication.name = r.replications.map Replication.name ++ new := by
  induction htr with
  | init => exact ⟨hlook, [], List.not_mem_nil, (List.append_nil _).symm⟩
  | @snoc es e s s' _ hstep ih =>
      rw [List.mem_append, not_or, List.mem_singleton] at hno
      obtain ⟨hs, new, hnew, hnames⟩ := ih hno.1
      cases hstep.effect with
      | quiet _ hl hrs =>
          rw [hl, hrs]
          exact ⟨hs, new, hnew, hnames⟩
      | @joined name' addr _ hnone hl hrs =>
          have hne : name ≠ name' := by
            rintro rfl
            rw [hs] at hnone
            cases hnone
          rw [hl, hrs, Function.update_of_ne hne, List.map_append, hnames, List.append_assoc]
          exact ⟨hs, _, by simpa [hnew] using hne, rfl⟩
      | @left name' j v _ hv hl hrs =>
          have hne : name ≠ name' := fun h => hno.2 (by rw [h])
          rw [hl, hrs, Function.update_of_ne hne, map_name_set hv { v with left := true } rfl]
          exact ⟨hs, new, hnew, hnames⟩
      | replication hv hrep hl hrs =>
          rw [hl, hrs, map_name_set hv _ hrep.name.1]
          exact ⟨hs, new, hnew, hnames⟩

/-- **A replication that has ended is not replaced.** It stays the server's,
so joining the server again does nothing: until `Leave` is called nothing
that the server holds is produced here any more by a new replication. -/
theorem ended_not_replaced {es : List (Event ρ)} (htr : Trace Step r es r') {name : String}
    (hlook : r.lookup name = some i) (hw : r.replications[i]? = some w)
    (hret : w.phase = .returned) (hno : .leave name ∉ es) :
    r'.lookup name = some i ∧
    (∃ w', r'.replications[i]? = some w' ∧ w'.phase = .returned ∧
      w'.pipe.taken = w.pipe.taken) ∧
    ∃ new, name ∉ new ∧
      r'.replications.map Replication.name = r.replications.map Replication.name ++ new := by
  obtain ⟨hlook', hnew⟩ := known_run htr hlook hno
  obtain ⟨w', hw', hret', htak, -⟩ := returned_run htr hw hret
  exact ⟨hlook', ⟨w', hw', hret', htak⟩, hnew⟩

/-- A replication that does not get a connection. -/
theorem trace_refused : ∃ (r : Replicator Nat) (w : Replication Nat),
    Trace Step (start false) [.join "a" "h:1", .replication 0 .refused] r ∧
      r.lookup "a" = some 0 ∧ r.replications[0]? = some w ∧ w.phase = .returned := by
  have h₁ : Trace Step (start false : Replicator Nat) _ _ := Trace.init.snoc (.join _ "a" "h:1")
  exact ⟨_, _, h₁.snoc (.replication (i := 0) rfl (.refused rfl)), rfl, rfl, rfl⟩

theorem ended_not_replaced_refused :
    ∃ (r r' : Replicator Nat) (w : Replication Nat), Trace Step r [.join "a" "h:1"] r' ∧
      w.phase = .returned ∧ r'.lookup "a" = some 0 ∧
      (∃ w', r'.replications[0]? = some w' ∧ w'.phase = .returned ∧
        w'.pipe.taken = w.pipe.taken) ∧
      ∃ new, "a" ∉ new ∧
        r'.replications.map Replication.name = r.replications.map Replication.name ++ new := by
  obtain ⟨r, w, -, hlook, hw, hret⟩ := trace_refused
  have h := Trace.init.snoc (Step.join r "a" "h:1")
  exact ⟨r, _, w, h, hret, ended_not_replaced h hlook hw hret (by simp)⟩

end Replicator

end DistributedLog
