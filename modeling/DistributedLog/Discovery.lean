import Mathlib.Logic.Function.Basic
import DistributedLog.Membership

/-!
# The configuration follows the leaders

Every node of a cluster is told of members that join and leave, each in its
own time, and the handler of every node calls `Join` or `Leave`. Here the
handlers of all nodes run side by side, one call to raft at a time, and
anyone may be elected at any moment. What `Join` knows of the configuration
may be out of date when it asks for a change; raft may fail a call for
whatever reason; and a change may be made although the caller gets an error,
since the leader was deposed before it could tell. Left alone on a leader
that makes every valid change, a handler does what `eventHandler` says
(`trace_eventHandler`).

raft makes a change only on the leader. Everywhere else the call comes to an
error, which is logged and forgotten, and nobody repeats it. So the
configuration has the members that leaders have put in and not taken out
again (`members_follow_leaders`). A member that fails while there is no
leader stays in the configuration.
-/

namespace DistributedLog.Cluster

namespace Discovery

/-- A call to raft that asks for a change. -/
inductive Call where
  | removeServer (name : String)
  | addVoter (name addr : String)
deriving DecidableEq, Repr

namespace Call

def name : Call → String
  | .removeServer name => name
  | .addVoter name _ => name

def adds : Call → Bool
  | .removeServer _ => false
  | .addVoter _ _ => true

/-- The servers that the call asks for. -/
def servers (srvs : List Server) : Call → List Server
  | .removeServer name => without srvs name
  | .addVoter name addr => withVoter srvs name addr

end Call

/-- Where the handler of a node is. -/
inductive Task where
  | idle
  /-- In `Join`, with the servers that the loop has yet to look at. -/
  | joining (m : Member) (servers : List Server)
  /-- In `Leave`. -/
  | leaving (m : Member)

/-- How the handler goes on where it does not ask raft. -/
def Task.walk : Task → Option Task
  | .joining m (srv :: servers) =>
      if srv.id = m.name ∨ srv.address = m.rpcAddr then
        if srv.address = m.rpcAddr ∧ srv.id = m.name then some .idle else none
      else some (.joining m servers)
  | _ => none

/-- What it asks raft for, and how it goes on if there is no error. -/
def Task.call : Task → Option (Call × Task)
  | .idle => none
  | .leaving m => some (.removeServer m.name, .idle)
  | .joining m [] => some (.addVoter m.name m.rpcAddr, .idle)
  | .joining m (srv :: servers) =>
      if srv.id = m.name ∨ srv.address = m.rpcAddr then
        if srv.address = m.rpcAddr ∧ srv.id = m.name then none
        else some (.removeServer m.name, .joining m servers)
      else none

/-- The configuration that raft has, with the changes that leaders have
begun and that will not be lost; the node that leads, if any; the handlers. -/
structure State where
  cfg : Configuration
  leader : Option String
  tasks : String → Task

/-- The handler of a node goes on. -/
def State.go (s : State) (node : String) (t : Task) (cfg : Configuration) : State where
  cfg := cfg
  leader := s.leader
  tasks := Function.update s.tasks node t

inductive Event where
  | elect (leader : Option String)
  -- a node takes up a member of an event
  | join (node : String) (m : Member)
  | leave (node : String) (m : Member)
  | walk (node : String)
  -- raft makes a change; `ok` says whether the caller is told so
  | made (node : String) (call : Call) (ok : Bool)
  | failed (node : String) (call : Call)
  -- the process ends, or `GetConfiguration` fails
  | stop (node : String)

inductive Step : State → Event → State → Prop where
  | elect {s : State} (leader : Option String) :
      Step s (.elect leader) { s with leader := leader }
  -- the leader has the configuration, any other node has what it has heard of
  | join {s : State} {node : String} {m : Member} {servers : List Server} :
      s.tasks node = .idle → m.name ≠ node → (s.leader = some node → servers = s.cfg.servers) →
      Step s (.join node m) (s.go node (.joining m servers) s.cfg)
  | leave {s : State} {node : String} {m : Member} : s.tasks node = .idle → m.name ≠ node →
      Step s (.leave node m) (s.go node (.leaving m) s.cfg)
  | walk {s : State} {node : String} {t : Task} : (s.tasks node).walk = some t →
      Step s (.walk node) (s.go node t s.cfg)
  | made {s : State} {node : String} {call : Call} {t : Task} (ok : Bool)
      (h : Valid (call.servers s.cfg.servers)) : (s.tasks node).call = some (call, t) →
      s.leader = some node →
      Step s (.made node call ok) (s.go node (if ok then t else .idle) ⟨_, h⟩)
  | failed {s : State} {node : String} {call : Call} {t : Task} :
      (s.tasks node).call = some (call, t) → Step s (.failed node call) (s.go node .idle s.cfg)
  | stop {s : State} (node : String) : Step s (.stop node) (s.go node .idle s.cfg)

variable {s s' : State} {e : Event} {es : List Event} {node name : String} {m : Member}
  {cfg cfg₀ : Configuration}

@[simp] theorem tasks_go_self (t : Task) : (s.go node t cfg).tasks node = t :=
  Function.update_self ..

theorem tasks_go_of_ne {other : String} (h : other ≠ node) (t : Task) :
    (s.go node t cfg).tasks other = s.tasks other :=
  Function.update_of_ne h ..

@[simp] theorem go_go (t t' : Task) (cfg' : Configuration) :
    (s.go node t cfg).go node t' cfg' = s.go node t' cfg' := by
  simp only [State.go, Function.update_idem]

/-! ## Who is in the configuration -/

def Listed (servers : List Server) (name : String) : Prop := ∃ srv ∈ servers, srv.id = name

/-- What the event makes of a name. -/
def Event.tells (name : String) : Event → Option Bool
  | .made _ call _ => if call.name = name then some call.adds else none
  | _ => none

/-- The last that a leader has made of a name. -/
def last (name : String) (es : List Event) : Option Bool :=
  (es.filterMap (Event.tells name)).getLast?

/-- What the events so far make of a name. -/
def Expected (cfg₀ : Configuration) (es : List Event) (name : String) : Prop :=
  match last name es with
  | some added => added = true
  | none => Listed cfg₀.servers name

theorem last_concat (name : String) (es : List Event) (e : Event) :
    last name (es ++ [e]) = (e.tells name <|> last name es) := by
  unfold last
  rw [List.filterMap_append, List.getLast?_append]
  cases he : e.tells name <;> simp [he]

theorem expected_concat_none (h : e.tells name = none) :
    Expected cfg₀ (es ++ [e]) name ↔ Expected cfg₀ es name := by
  rw [Expected, last_concat, h]
  rfl

theorem expected_concat_some {added : Bool} (h : e.tells name = some added) :
    Expected cfg₀ (es ++ [e]) name ↔ added = true := by
  rw [Expected, last_concat, h]
  rfl

theorem mem_withVoter (servers : List Server) (id addr : String) :
    ∃ srv ∈ withVoter servers id addr, srv.id = id ∧ srv.address = addr := by
  unfold withVoter
  split
  case isTrue hin =>
    obtain ⟨srv, hsrv, hid⟩ := hin
    exact ⟨_, List.mem_map_of_mem hsrv, by rw [if_pos hid], by rw [if_pos hid]⟩
  case isFalse => exact ⟨_, List.mem_append_right _ (List.mem_singleton_self _), rfl, rfl⟩

theorem listed_withVoter_of_ne {servers : List Server} {id addr : String} (hne : name ≠ id) :
    Listed (withVoter servers id addr) name ↔ Listed servers name := by
  unfold withVoter
  split
  case isTrue =>
    constructor
    · rintro ⟨srv, hsrv, rfl⟩
      obtain ⟨srv', hsrv', rfl⟩ := List.mem_map.mp hsrv
      by_cases hid : srv'.id = id
      · rw [if_pos hid] at hne
        exact absurd rfl hne
      · rw [if_neg hid]
        exact ⟨srv', hsrv', rfl⟩
    · rintro ⟨srv, hsrv, rfl⟩
      exact ⟨srv, List.mem_map.mpr ⟨srv, hsrv, if_neg hne⟩, rfl⟩
  case isFalse =>
    constructor
    · rintro ⟨srv, hsrv, rfl⟩
      rcases List.mem_append.mp hsrv with hsrv | hsrv
      · exact ⟨srv, hsrv, rfl⟩
      · rw [List.mem_singleton.mp hsrv] at hne
        exact absurd rfl hne
    · rintro ⟨srv, hsrv, rfl⟩
      exact ⟨srv, List.mem_append_left _ hsrv, rfl⟩

theorem not_listed_without {servers : List Server} : ¬ Listed (without servers name) name := by
  rintro ⟨srv, hsrv, hid⟩
  exact (mem_without.mp hsrv).2 hid

/-- A change is about one name. -/
theorem listed_servers (call : Call) (servers : List Server) (name : String) :
    Listed (call.servers servers) name ↔
      if call.name = name then call.adds = true else Listed servers name := by
  split
  case isTrue hname =>
    subst hname
    cases call with
    | removeServer id => exact iff_of_false not_listed_without Bool.false_ne_true
    | addVoter id addr =>
        obtain ⟨srv, hsrv, hid, -⟩ := mem_withVoter servers id addr
        exact iff_of_true ⟨srv, hsrv, hid⟩ rfl
  case isFalse hname =>
    cases call with
    | removeServer id =>
        constructor
        · rintro ⟨srv, hsrv, rfl⟩
          exact ⟨srv, (mem_without.mp hsrv).1, rfl⟩
        · rintro ⟨srv, hsrv, rfl⟩
          exact ⟨srv, mem_without.mpr ⟨hsrv, Ne.symm hname⟩, rfl⟩
    | addVoter id addr => exact listed_withVoter_of_ne (Ne.symm hname)

theorem Step.listed (hstep : Step s e s')
    (h : ∀ name, Listed s.cfg.servers name ↔ Expected cfg₀ es name) (name : String) :
    Listed s'.cfg.servers name ↔ Expected cfg₀ (es ++ [e]) name := by
  cases hstep with
  | @made node call t ok hvalid hcall hl =>
      have htells : (Event.made node call ok).tells name =
          if call.name = name then some call.adds else none := rfl
      change Listed (call.servers s.cfg.servers) name ↔ _
      rw [listed_servers]
      by_cases hname : call.name = name
      · rw [if_pos hname] at htells ⊢
        rw [expected_concat_some htells]
      · rw [if_neg hname] at htells ⊢
        rw [expected_concat_none htells]
        exact h name
  | _ =>
      rw [expected_concat_none rfl]
      exact h name

/-! ## Who asks for a change -/

/-- The node that the last election has made the leader. -/
def leading (leader : Option String) (es : List Event) : Option String :=
  es.foldl (fun l e => match e with | .elect leader => leader | _ => l) leader

/-- The event makes the handler of the node ask for the change. -/
def Event.Asks (node : String) (call : Call) : Event → Prop
  | .join node' m => node' = node ∧ m.name ≠ node ∧
      (call = .removeServer m.name ∨ call = .addVoter m.name m.rpcAddr)
  | .leave node' m => node' = node ∧ m.name ≠ node ∧ call = .removeServer m.name
  | _ => False

/-- The handler is where one of the events has brought it. -/
def Task.From (node : String) (es : List Event) : Task → Prop
  | .idle => True
  | .joining m _ => .join node m ∈ es ∧ m.name ≠ node
  | .leaving m => .leave node m ∈ es ∧ m.name ≠ node

theorem Task.From.mono {t : Task} (h : t.From node es) (e : Event) : t.From node (es ++ [e]) := by
  cases t with
  | idle => trivial
  | joining m servers => exact ⟨List.mem_append_left _ h.1, h.2⟩
  | leaving m => exact ⟨List.mem_append_left _ h.1, h.2⟩

/-- The steps of a handler in `Join`, one server at a time. -/
theorem Task.walk_cases {t t' : Task} (h : t.walk = some t') :
    ∃ m srv servers, t = .joining m (srv :: servers) ∧
      ((srv.address = m.rpcAddr ∧ srv.id = m.name) ∧ t' = .idle ∨
        ¬ (srv.id = m.name ∨ srv.address = m.rpcAddr) ∧ t' = .joining m servers) := by
  unfold Task.walk at h
  split at h
  case h_2 => cases h
  case h_1 m srv servers =>
    refine ⟨m, srv, servers, rfl, ?_⟩
    by_cases hany : srv.id = m.name ∨ srv.address = m.rpcAddr
    · rw [if_pos hany] at h
      split at h
      case isTrue hboth =>
        cases h
        exact .inl ⟨hboth, rfl⟩
      case isFalse => cases h
    · rw [if_neg hany] at h
      cases h
      exact .inr ⟨hany, rfl⟩

theorem Task.call_cases {t t' : Task} {call : Call} (h : t.call = some (call, t')) :
    (∃ m, t = .leaving m ∧ call = .removeServer m.name ∧ t' = .idle) ∨
    (∃ m, t = .joining m [] ∧ call = .addVoter m.name m.rpcAddr ∧ t' = .idle) ∨
    ∃ m srv servers, t = .joining m (srv :: servers) ∧ call = .removeServer m.name ∧
      t' = .joining m servers ∧ (srv.id = m.name ∨ srv.address = m.rpcAddr) ∧
      ¬ (srv.address = m.rpcAddr ∧ srv.id = m.name) := by
  unfold Task.call at h
  split at h
  case h_1 => cases h
  case h_2 m =>
    cases h
    exact .inl ⟨m, rfl, rfl, rfl⟩
  case h_3 m =>
    cases h
    exact .inr (.inl ⟨m, rfl, rfl, rfl⟩)
  case h_4 m srv servers =>
    split at h
    case isFalse => cases h
    case isTrue hany =>
      split at h
      case isTrue => cases h
      case isFalse hboth =>
        cases h
        exact .inr (.inr ⟨m, srv, servers, rfl, rfl, rfl, hany, hboth⟩)

theorem Task.From.walk {t t' : Task} (h : t.From node es) (hwalk : t.walk = some t') :
    t'.From node es := by
  obtain ⟨m, srv, servers, rfl, ⟨-, rfl⟩ | ⟨-, rfl⟩⟩ := Task.walk_cases hwalk
  · trivial
  · exact h

theorem Task.From.call {t t' : Task} {call : Call} (h : t.From node es)
    (hcall : t.call = some (call, t')) : t'.From node es ∧ ∃ e ∈ es, e.Asks node call := by
  rcases Task.call_cases hcall with ⟨m, rfl, rfl, rfl⟩ | ⟨m, rfl, rfl, rfl⟩ |
    ⟨m, srv, servers, rfl, rfl, rfl, -⟩
  · exact ⟨trivial, _, h.1, rfl, h.2, rfl⟩
  · exact ⟨trivial, _, h.1, rfl, h.2, .inr rfl⟩
  · exact ⟨h, _, h.1, rfl, h.2, .inl rfl⟩

/-- The handlers and the leader, by the events so far. -/
structure Follows (leader : Option String) (es : List Event) (s : State) : Prop where
  leader : s.leader = leading leader es
  tasks : ∀ node, (s.tasks node).From node es

theorem Follows.go {leader : Option String} (h : Follows leader es s) (t : Task)
    (ht : t.From node (es ++ [e])) (he : leading leader (es ++ [e]) = leading leader es) :
    Follows leader (es ++ [e]) (s.go node t cfg) := by
  refine ⟨he ▸ h.leader, fun other => ?_⟩
  by_cases hother : other = node
  · rw [hother, tasks_go_self]
    exact ht
  · rw [tasks_go_of_ne hother]
    exact (h.tasks other).mono e

theorem Follows.step {leader : Option String} (h : Follows leader es s) (hstep : Step s e s') :
    Follows leader (es ++ [e]) s' := by
  have hnew : e ∈ es ++ [e] := List.mem_append_right _ (List.mem_singleton_self _)
  cases hstep with
  | elect leader' => exact ⟨by simp [leading], fun node => (h.tasks node).mono _⟩
  | join _ hne _ => exact h.go _ ⟨hnew, hne⟩ (by simp [leading])
  | leave _ hne => exact h.go _ ⟨hnew, hne⟩ (by simp [leading])
  | walk hwalk => exact h.go _ (((h.tasks _).mono _).walk hwalk) (by simp [leading])
  | @made node call t ok hvalid hcall hl =>
      refine h.go _ ?_ (by simp [leading])
      cases ok with
      | true => exact (((h.tasks node).mono _).call hcall).1
      | false => trivial
  | failed _ => exact h.go _ trivial (by simp [leading])
  | stop node => exact h.go _ trivial (by simp [leading])

theorem Follows.run {s₀ : State} (hidle : ∀ node, s₀.tasks node = .idle)
    (htr : Trace Step s₀ es s) : Follows s₀.leader es s := by
  induction htr with
  | init => exact ⟨rfl, fun node => by rw [hidle node]; trivial⟩
  | snoc _ hstep ih => exact ih.step hstep

/-! ## A handler that is left alone -/

/-- The event takes the lead from somebody, or is more than the handler of
the node going on without an error. -/
def Event.Disturbs (node : String) : Event → Prop
  | .elect _ => True
  | .join node' _ => node' = node
  | .leave node' _ => node' = node
  | .walk _ => False
  | .made node' _ ok => node' = node ∧ ok = false
  | .failed node' _ => node' = node
  | .stop node' => node' = node

/-- What can be said of the configuration, by where the handler of the
leader is. -/
structure Alone (Going : Configuration → Task → Prop) (node : String) (s : State) : Prop where
  led : s.leader = some node
  going : Going s.cfg (s.tasks node)

/-- While one node leads, the configuration is changed by its handler only. -/
theorem Alone.step {Going : Configuration → Task → Prop} (h : Alone Going node s)
    (hstep : Step s e s') (he : ¬ e.Disturbs node)
    (hwalk : ∀ cfg t t', Going cfg t → t.walk = some t' → Going cfg t')
    (hcall : ∀ cfg t t' call (hv : Valid (call.servers cfg.servers)), Going cfg t →
      t.call = some (call, t') → Going ⟨_, hv⟩ t') : Alone Going node s' := by
  have hother : ∀ {other : String} (t : Task), other ≠ node →
      Alone Going node (s.go other t s.cfg) :=
    fun t hne => ⟨h.led, by rw [tasks_go_of_ne (Ne.symm hne)]; exact h.going⟩
  cases hstep with
  | elect => exact absurd trivial he
  | join => exact hother _ he
  | leave => exact hother _ he
  | @walk node' t ht =>
      by_cases hnode : node' = node
      · subst hnode
        exact ⟨h.led, by rw [tasks_go_self]; exact hwalk _ _ _ h.going ht⟩
      · exact hother _ hnode
  | @made node' call t ok hvalid hnext hl =>
      obtain rfl : node = node' := Option.some.inj (h.led.symm.trans hl)
      obtain rfl : ok = true := by
        cases ok with
        | true => rfl
        | false => exact absurd ⟨rfl, rfl⟩ he
      exact ⟨hl, by rw [if_pos rfl, tasks_go_self]; exact hcall _ _ _ _ hvalid h.going hnext⟩
  | failed => exact hother _ he
  | stop => exact hother _ he

theorem Alone.run {Going : Configuration → Task → Prop} (h : Alone Going node s)
    (htr : Trace Step s es s') (hes : ∀ e ∈ es, ¬ e.Disturbs node)
    (hwalk : ∀ cfg t t', Going cfg t → t.walk = some t' → Going cfg t')
    (hcall : ∀ cfg t t' call (hv : Valid (call.servers cfg.servers)), Going cfg t →
      t.call = some (call, t') → Going ⟨_, hv⟩ t') : Alone Going node s' := by
  induction htr with
  | init => exact h
  | snoc _ hstep ih =>
      exact (ih fun e he => hes e (List.mem_append_left _ he)).step hstep
        (hes _ (List.mem_append_right _ (List.mem_singleton_self _))) hwalk hcall

/-- A join on its way: if the loop comes to the member itself, it is there. -/
def Joining (m : Member) (cfg : Configuration) : Task → Prop
  | .idle => ∃ srv ∈ cfg.servers, srv.id = m.name ∧ srv.address = m.rpcAddr
  | .joining m' servers => m' = m ∧ (servers.map Server.id).Nodup ∧
      (servers.map Server.address).Nodup ∧
      ∀ srv ∈ servers, srv.address = m.rpcAddr → srv.id = m.name → srv ∈ cfg.servers
  | .leaving _ => False

theorem Joining.walk {cfg : Configuration} {t t' : Task} (h : Joining m cfg t)
    (hwalk : t.walk = some t') : Joining m cfg t' := by
  obtain ⟨m', srv, servers, rfl, ⟨⟨haddr, hid⟩, rfl⟩ | ⟨-, rfl⟩⟩ := Task.walk_cases hwalk
  · obtain ⟨rfl, -, -, hin⟩ := h
    exact ⟨srv, hin srv List.mem_cons_self haddr hid, hid, haddr⟩
  · obtain ⟨rfl, hids, haddrs, hin⟩ := h
    exact ⟨rfl, (List.nodup_cons.mp hids).2, (List.nodup_cons.mp haddrs).2,
      fun srv' hsrv' => hin srv' (List.mem_cons_of_mem _ hsrv')⟩

/-- Where the ID is removed no server that is left is the member itself. -/
theorem Joining.call {cfg : Configuration} {t t' : Task} {call : Call}
    (hv : Valid (call.servers cfg.servers)) (h : Joining m cfg t)
    (hcall : t.call = some (call, t')) : Joining m ⟨_, hv⟩ t' := by
  rcases Task.call_cases hcall with ⟨m', rfl, -⟩ | ⟨m', rfl, rfl, rfl⟩ |
    ⟨m', srv, servers, rfl, rfl, rfl, hany, -⟩
  · exact h.elim
  · obtain ⟨rfl, -⟩ := h
    exact mem_withVoter _ _ _
  · obtain ⟨rfl, hids, haddrs, -⟩ := h
    rw [List.map_cons, List.nodup_cons] at hids haddrs
    refine ⟨rfl, hids.2, haddrs.2, fun srv' hsrv' haddr hid => ?_⟩
    rcases hany with h | h
    · exact absurd (h.trans hid.symm ▸ List.mem_map_of_mem hsrv') hids.1
    · exact absurd (h.trans haddr.symm ▸ List.mem_map_of_mem hsrv') haddrs.1

/-- A leave on its way. -/
def Leaving (m : Member) (cfg : Configuration) : Task → Prop
  | .idle => ¬ Listed cfg.servers m.name
  | .joining _ _ => False
  | .leaving m' => m' = m

theorem Leaving.call {cfg : Configuration} {t t' : Task} {call : Call}
    (hv : Valid (call.servers cfg.servers)) (h : Leaving m cfg t)
    (hcall : t.call = some (call, t')) : Leaving m ⟨_, hv⟩ t' := by
  rcases Task.call_cases hcall with ⟨m', rfl, rfl, rfl⟩ | ⟨m', rfl, -⟩ | ⟨m', srv, servers, rfl, -⟩
  · obtain rfl : m' = m := h
    exact not_listed_without
  · exact h.elim
  · exact h.elim

theorem Leaving.walk {cfg : Configuration} {t t' : Task} (h : Leaving m cfg t)
    (hwalk : t.walk = some t') : Leaving m cfg t' := by
  obtain ⟨m', srv, servers, rfl, -⟩ := Task.walk_cases hwalk
  exact h.elim

/-- A leader that takes up a join and is left alone puts the member in. -/
theorem joined (hstep : Step s (.join node m) s') (hl : s.leader = some node) {s'' : State}
    (htr : Trace Step s' es s'') (hes : ∀ e ∈ es, ¬ e.Disturbs node)
    (hidle : s''.tasks node = .idle) :
    ∃ srv ∈ s''.cfg.servers, srv.id = m.name ∧ srv.address = m.rpcAddr := by
  have hstart : Alone (Joining m) node s' := by
    cases hstep with
    | join _ _ hsees =>
        refine ⟨hl, ?_⟩
        rw [tasks_go_self, hsees hl]
        exact ⟨rfl, s.cfg.valid.ids, s.cfg.valid.addresses, fun srv hsrv _ _ => hsrv⟩
  have hend := (hstart.run htr hes (fun _ _ _ => Joining.walk)
    fun _ _ _ _ hv => Joining.call hv).going
  rw [hidle] at hend
  exact hend

theorem left (hstep : Step s (.leave node m) s') (hl : s.leader = some node) {s'' : State}
    (htr : Trace Step s' es s'') (hes : ∀ e ∈ es, ¬ e.Disturbs node)
    (hidle : s''.tasks node = .idle) : ¬ Listed s''.cfg.servers m.name := by
  have hstart : Alone (Leaving m) node s' := by
    cases hstep with
    | leave =>
        refine ⟨hl, ?_⟩
        rw [tasks_go_self]
        rfl
  have hend := (hstart.run htr hes (fun _ _ _ => Leaving.walk)
    fun _ _ _ _ hv => Leaving.call hv).going
  rw [hidle] at hend
  exact hend

/-! ## One handler and `eventHandler` -/

theorem go_idle (h : s.tasks node = .idle) : s.go node .idle s.cfg = s := by
  simp only [State.go, ← h, Function.update_eq_self]

/-- What raft decides is one of the things that may come of a call. -/
theorem step_decided {call : Call} {t : Task} {res : Except String Configuration}
    (hl : s.leader = some node) (ht : (s.tasks node).call = some (call, t))
    (hres : Decided (call.servers s.cfg.servers) res) :
    (∃ err, res = .error err ∧ Step s (.failed node call) (s.go node .idle s.cfg)) ∨
    ∃ cfg', res = .ok cfg' ∧ Step s (.made node call true) (s.go node t cfg') := by
  by_cases hv : Valid (call.servers s.cfg.servers)
  · exact .inr ⟨_, hres.ok hv, .made true hv ht hl⟩
  · obtain ⟨err, herr⟩ := hres.error hv
    exact .inl ⟨err, herr, .failed ht⟩

/-- The loop of `Join` as a run of the handler. -/
theorem trace_joinLoop (R : Raft) {servers : List Server} (hl : s.leader = some node)
    (ht : s.tasks node = .joining m servers) : ∃ es,
      Trace Step s es (s.go node .idle (joinLoop R m.name m.rpcAddr servers s.cfg).2) := by
  induction servers generalizing s with
  | nil =>
      have hcall : (s.tasks node).call = some (.addVoter m.name m.rpcAddr, .idle) := by rw [ht]; rfl
      rw [joinLoop, addServer]
      rcases step_decided hl hcall (R.addVoter_decided s.cfg m.name m.rpcAddr) with
        ⟨err, herr, hstep⟩ | ⟨cfg', hok, hstep⟩
      · rw [herr]
        exact ⟨_, Trace.init.snoc hstep⟩
      · rw [hok]
        exact ⟨_, Trace.init.snoc hstep⟩
  | cons srv servers ih =>
      -- the rest of the loop, after a step that has left `cfg'`
      have hrest : ∀ cfg', ∃ es, Trace Step (s.go node (.joining m servers) cfg') es
          (s.go node .idle (joinLoop R m.name m.rpcAddr servers cfg').2) := fun cfg' => by
        have htr := ih (s := s.go node (.joining m servers) cfg') hl (tasks_go_self _)
        rw [go_go] at htr
        exact htr
      rw [joinLoop]
      by_cases hany : srv.id = m.name ∨ srv.address = m.rpcAddr
      · rw [if_pos hany]
        by_cases hboth : srv.address = m.rpcAddr ∧ srv.id = m.name
        · rw [if_pos hboth]
          refine ⟨_, Trace.init.snoc (.walk ?_)⟩
          rw [ht, Task.walk, if_pos hany, if_pos hboth]
        · rw [if_neg hboth]
          have hcall : (s.tasks node).call = some (.removeServer m.name, .joining m servers) := by
            rw [ht, Task.call, if_pos hany, if_neg hboth]
          rcases step_decided hl hcall (R.removeServer_decided s.cfg m.name) with
            ⟨err, herr, hstep⟩ | ⟨cfg', hok, hstep⟩
          · rw [herr]
            exact ⟨_, Trace.init.snoc hstep⟩
          · rw [hok]
            obtain ⟨es, htr⟩ := hrest cfg'
            exact ⟨_, (Trace.init.snoc hstep).append htr⟩
      · rw [if_neg hany]
        have hwalk : (s.tasks node).walk = some (.joining m servers) := by
          rw [ht, Task.walk, if_neg hany]
        obtain ⟨es, htr⟩ := hrest s.cfg
        exact ⟨_, (Trace.init.snoc (.walk hwalk)).append htr⟩

theorem trace_handleJoin (R : Raft) (hl : s.leader = some node) (ht : s.tasks node = .idle)
    (hne : m.name ≠ node) : ∃ es, Trace Step s es (s.go node .idle (handleJoin R s.cfg m)) := by
  obtain ⟨es, htr⟩ := trace_joinLoop R (s := s.go node (.joining m s.cfg.servers) s.cfg) hl
    (tasks_go_self _)
  rw [go_go] at htr
  exact ⟨_, (Trace.init.snoc (.join ht hne fun _ => rfl)).append htr⟩

theorem trace_handleLeave (R : Raft) (hl : s.leader = some node) (ht : s.tasks node = .idle)
    (hne : m.name ≠ node) : ∃ es, Trace Step s es (s.go node .idle (handleLeave R s.cfg m)) := by
  have hcall : ((s.go node (.leaving m) s.cfg).tasks node).call =
      some (.removeServer m.name, .idle) := by
    rw [tasks_go_self]
    rfl
  rw [handleLeave, leave]
  rcases step_decided (s := s.go node (.leaving m) s.cfg) hl hcall
    (R.removeServer_decided s.cfg m.name) with ⟨err, herr, hstep⟩ | ⟨cfg', hok, hstep⟩
  · rw [go_go] at hstep
    rw [herr]
    exact ⟨_, (Trace.init.snoc (.leave ht hne)).snoc hstep⟩
  · rw [go_go] at hstep
    rw [hok]
    exact ⟨_, (Trace.init.snoc (.leave ht hne)).snoc hstep⟩

/-- The members of one event, each handled as it may be on its own. -/
theorem trace_handleMembers {handle : Configuration → Member → Configuration}
    (hhandle : ∀ {s : State} {m : Member}, s.leader = some node → s.tasks node = .idle →
      m.name ≠ node → ∃ es, Trace Step s es (s.go node .idle (handle s.cfg m)))
    (hl : s.leader = some node) (ht : s.tasks node = .idle) (members : List Member) :
    ∃ es, Trace Step s es (s.go node .idle (handleMembers handle node s.cfg members)) := by
  induction members generalizing s with
  | nil =>
      rw [handleMembers, List.foldl_nil, go_idle ht]
      exact ⟨[], .init⟩
  | cons m members ih =>
      rw [handleMembers, List.foldl_cons]
      by_cases hm : m.name = node
      · rw [if_pos hm]
        exact ih hl ht
      · rw [if_neg hm]
        obtain ⟨es, hfirst⟩ := hhandle hl ht hm
        obtain ⟨es', hrest⟩ := ih (s := s.go node .idle (handle s.cfg m)) hl (tasks_go_self _)
        rw [go_go] at hrest
        exact ⟨es ++ es', hfirst.append hrest⟩

/-- A round of `eventHandler` is one of the runs. -/
theorem trace_eventHandler (R : Raft) (hl : s.leader = some node) (ht : s.tasks node = .idle)
    (event : Cluster.Event) :
    ∃ es, Trace Step s es (s.go node .idle (eventHandler R node s.cfg event)) := by
  cases event with
  | memberJoin members => exact trace_handleMembers (trace_handleJoin R) hl ht members
  | memberLeave members => exact trace_handleMembers (trace_handleLeave R) hl ht members
  | memberFailed members => exact trace_handleMembers (trace_handleLeave R) hl ht members
  | other =>
      rw [eventHandler, go_idle ht]
      exact ⟨[], .init⟩

/-! ## Every run -/

/-- **The configuration follows the leaders.** Over every run, with elections
at any moment and the handlers of all nodes side by side: a name is in the
configuration exactly if the last change about it was to add it, or if there
was none and it was there at the start; every change is made by the node that
leads at that moment, which has taken up an event that asks for it; and an
event that a leader takes up and is left alone with has its effect. -/
theorem members_follow_leaders {s₀ : State} (hidle : ∀ node, s₀.tasks node = .idle)
    (htr : Trace Step s₀ es s) :
    (∀ name, Listed s.cfg.servers name ↔ Expected s₀.cfg es name) ∧
    (∀ pre node call ok post, es = pre ++ .made node call ok :: post →
      leading s₀.leader pre = some node ∧ ∃ e ∈ pre, e.Asks node call) ∧
    (∀ pre node m post, es = pre ++ .join node m :: post → leading s₀.leader pre = some node →
      (∀ e ∈ post, ¬ e.Disturbs node) → s.tasks node = .idle →
      ∃ srv ∈ s.cfg.servers, srv.id = m.name ∧ srv.address = m.rpcAddr) ∧
    ∀ pre node m post, es = pre ++ .leave node m :: post → leading s₀.leader pre = some node →
      (∀ e ∈ post, ¬ e.Disturbs node) → s.tasks node = .idle →
      ¬ Listed s.cfg.servers m.name := by
  refine ⟨?_, ?_, ?_, ?_⟩
  · induction htr with
    | init => exact fun _ => .rfl
    | snoc _ hstep ih => exact hstep.listed ih
  · intro pre node call ok post hes
    obtain ⟨s₁, s₂, hpre, hstep, -⟩ := htr.split hes
    have hfollows := Follows.run hidle hpre
    cases hstep with
    | made _ _ hcall hl =>
        exact ⟨hfollows.leader.symm.trans hl, ((hfollows.tasks node).call hcall).2⟩
  · intro pre node m post hes hl halone hdone
    obtain ⟨s₁, s₂, hpre, hstep, hpost⟩ := htr.split hes
    exact joined hstep ((Follows.run hidle hpre).leader.trans hl) hpost halone hdone
  · intro pre node m post hes hl halone hdone
    obtain ⟨s₁, s₂, hpre, hstep, hpost⟩ := htr.split hes
    exact left hstep ((Follows.run hidle hpre).leader.trans hl) hpost halone hdone

/-- The second of three nodes fails while there is no leader; then the first
is elected and a fourth joins. -/
theorem trace_missed : ∃ s, Trace Step ⟨threeVoters, some "c", fun _ => .idle⟩
    [.elect none, .leave "a" ⟨"b", "b:1"⟩, .failed "a" (.removeServer "b"),
      .leave "c" ⟨"b", "b:1"⟩, .failed "c" (.removeServer "b"), .elect (some "a"),
      .join "a" ⟨"d", "d:1"⟩, .walk "a", .walk "a", .walk "a",
      .made "a" (.addVoter "d" "d:1") true] s ∧ s.tasks "a" = .idle := by
  have h₁ : Trace Step ⟨threeVoters, some "c", fun _ => .idle⟩ [.elect none] _ :=
    Trace.init.snoc (.elect none)
  have h₂ : Trace Step _ (_ ++ [.leave "a" ⟨"b", "b:1"⟩]) _ := h₁.snoc (.leave rfl (by decide))
  have h₃ : Trace Step _ (_ ++ [.failed "a" _]) _ := h₂.snoc (.failed rfl)
  have h₄ : Trace Step _ (_ ++ [.leave "c" ⟨"b", "b:1"⟩]) _ := h₃.snoc (.leave rfl (by decide))
  have h₅ : Trace Step _ (_ ++ [.failed "c" _]) _ := h₄.snoc (.failed rfl)
  have h₆ := h₅.snoc (.elect (some "a"))
  have h₇ : Trace Step _ (_ ++ [.join "a" ⟨"d", "d:1"⟩]) _ :=
    h₆.snoc (.join rfl (by decide) fun _ => rfl)
  have h₈ : Trace Step _ (_ ++ [.walk "a"]) _ := h₇.snoc (.walk rfl)
  have h₉ : Trace Step _ (_ ++ [.walk "a"]) _ := h₈.snoc (.walk rfl)
  have h₁₀ : Trace Step _ (_ ++ [.walk "a"]) _ := h₉.snoc (.walk rfl)
  have h₁₁ : Trace Step _ (_ ++ [.made "a" _ true]) _ := h₁₀.snoc (.made true (by decide) rfl rfl)
  exact ⟨_, h₁₁, rfl⟩

/-- The failed node is still there, and so is the new one. -/
theorem members_follow_leaders_missed_leave : ∃ s,
    Trace Step ⟨threeVoters, some "c", fun _ => .idle⟩
      [.elect none, .leave "a" ⟨"b", "b:1"⟩, .failed "a" (.removeServer "b"),
        .leave "c" ⟨"b", "b:1"⟩, .failed "c" (.removeServer "b"), .elect (some "a"),
        .join "a" ⟨"d", "d:1"⟩, .walk "a", .walk "a", .walk "a",
        .made "a" (.addVoter "d" "d:1") true] s ∧
    Listed s.cfg.servers "b" ∧ ∃ srv ∈ s.cfg.servers, srv.id = "d" ∧ srv.address = "d:1" := by
  obtain ⟨s, htr, hdone⟩ := trace_missed
  obtain ⟨hlisted, -, hjoined, -⟩ := members_follow_leaders (fun _ => rfl) htr
  refine ⟨s, htr, (hlisted "b").mpr ?_, ?_⟩
  · exact ⟨⟨.voter, "b", "b:1"⟩, by simp [threeVoters], rfl⟩
  · exact hjoined [.elect none, .leave "a" ⟨"b", "b:1"⟩, .failed "a" (.removeServer "b"),
      .leave "c" ⟨"b", "b:1"⟩, .failed "c" (.removeServer "b"), .elect (some "a")] "a"
      ⟨"d", "d:1"⟩ _ rfl rfl (by simp [Event.Disturbs]) hdone

end Discovery

end DistributedLog.Cluster
