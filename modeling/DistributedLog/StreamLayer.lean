import Mathlib.Logic.Function.Basic
import DistributedLog.Pipeline
import DistributedLog.Trace

/-!
# One port for raft and for clients

An agent listens on one port (`internal/agent/agent.go`). Its mux lets
matchers look at a connection: `setupLog` has asked for those that begin with
`RaftRPC`, and `setupServer` gets all others. `StreamLayer.Dial`
(`internal/log/distributed/stream_layer.go`) writes this byte before anything
else, and `StreamLayer.Accept` reads it off again. cmux itself is a parameter,
`Mux`: the first matcher that accepts gets the connection, and what matchers
have looked at is there to be read again.

Peers and clients write in pieces of any size, and the mux looks at the
connections in any order while more comes in. Whatever the order, raft reads
on a connection what was written after the first byte, the server reads on
its own all that was written, and nothing is lost, doubled or given to the
other (`streams_kept_apart`). `Accept` never has anything to refuse.
-/

namespace DistributedLog.StreamLayer

def raftRPC : UInt8 := 1

/-- Who has a connection. -/
inductive Owner where
  | mux
  | raftLn
  | raft
  | rpc
  | dropped
deriving DecidableEq

structure Conn where
  -- from the peer to the agent
  tape : Tape UInt8
  closed : Bool
  owner : Owner

/-- `cmux.CMux` with its matchers, in the order of the calls of `Match`: on
what has come in on a connection, who gets it and what there is to read. -/
structure Mux where
  serve : List (List UInt8 → Bool) → List UInt8 → Option Nat × List UInt8
  serve_matches : ∀ matchers bytes,
    (serve matchers bytes).1 = matchers.findIdx? fun matcher => matcher bytes
  serve_replays : ∀ matchers bytes, (serve matchers bytes).2 = bytes

/-- The matcher of `setupLog`, which reads into one byte. At the end of the
stream that is an error, and there is nothing. -/
def isRaft (bytes : List UInt8) : Bool := bytes.take 1 = [raftRPC]

/-- `cmux.Any`. -/
def isAny (_ : List UInt8) : Bool := true

/-- The listener of a matcher. Without one the mux closes the connection. -/
def listener : Option Nat → Owner
  | some 0 => .raftLn
  | some _ => .rpc
  | none => .dropped

/-- `setupLog` calls `Match` before `setupServer` does. -/
def Conn.serve (M : Mux) (c : Conn) : Conn :=
  { c with
    tape :=
      { c.tape with
        unread := (M.serve [isRaft, isAny] c.tape.unread).2
        conserved := by rw [M.serve_replays]; exact c.tape.conserved }
    owner := listener (M.serve [isRaft, isAny] c.tape.unread).1 }

inductive Refusal where
  | eof
  | notARaftRpc
deriving DecidableEq

/-- `StreamLayer.Accept`, once the listener has a connection for it. -/
def Conn.accept (c : Conn) : Option Refusal × Conn :=
  match c.tape.read 1 with
  | ([], tape) => (some .eof, { c with tape := tape, owner := .dropped })
  | (b, tape) =>
      if b = [raftRPC] then (none, { c with tape := tape, owner := .raft })
      else (some .notARaftRpc, { c with tape := tape, owner := .dropped })

inductive Event where
  | dial (id : Nat)
  | connect (id : Nat)
  | write (id : Nat) (bytes : List UInt8)
  | hangUp (id : Nat)
  | serve (id : Nat)
  | accept (id : Nat) (err : Option Refusal)
  | read (id : Nat) (bytes : List UInt8)
deriving DecidableEq

/-- A read waits for a byte or for the end of the stream. -/
inductive Step (M : Mux) : (Nat → Option Conn) → Event → (Nat → Option Conn) → Prop where
  | dial {s : Nat → Option Conn} {id : Nat} : s id = none →
      Step M s (.dial id) (Function.update s id (some ⟨Tape.empty.send [raftRPC], false, .mux⟩))
  | connect {s : Nat → Option Conn} {id : Nat} : s id = none →
      Step M s (.connect id) (Function.update s id (some ⟨Tape.empty, false, .mux⟩))
  | write {s : Nat → Option Conn} {id : Nat} {c : Conn} (bytes : List UInt8) : s id = some c →
      c.closed = false →
      Step M s (.write id bytes) (Function.update s id (some { c with tape := c.tape.send bytes }))
  | hangUp {s : Nat → Option Conn} {id : Nat} {c : Conn} : s id = some c →
      Step M s (.hangUp id) (Function.update s id (some { c with closed := true }))
  | serve {s : Nat → Option Conn} {id : Nat} {c : Conn} : s id = some c → c.owner = .mux →
      c.tape.unread ≠ [] ∨ c.closed = true →
      Step M s (.serve id) (Function.update s id (some (c.serve M)))
  | accept {s : Nat → Option Conn} {id : Nat} {c : Conn} {err : Option Refusal} {c' : Conn} :
      s id = some c → c.owner = .raftLn → c.tape.unread ≠ [] ∨ c.closed = true →
      c.accept = (err, c') → Step M s (.accept id err) (Function.update s id (some c'))
  | read {s : Nat → Option Conn} {id : Nat} {c : Conn} {bytes : List UInt8} {tape : Tape UInt8}
      (n : Nat) : s id = some c → c.owner = .raft ∨ c.owner = .rpc →
      c.tape.read n = (bytes, tape) →
      Step M s (.read id bytes) (Function.update s id (some { c with tape := tape }))

/-! ## What the events say of a connection -/

def Event.id : Event → Nat
  | dial id | connect id | write id _ | hangUp id | serve id | accept id _ | read id _ => id

/-- What the peer writes. -/
def Event.written : Event → List UInt8
  | dial _ => [raftRPC]
  | write _ bytes => bytes
  | connect _ | hangUp _ | serve _ | accept _ _ | read _ _ => []

/-- What raft or the server reads. -/
def Event.readBy : Event → List UInt8
  | read _ bytes => bytes
  | dial _ | connect _ | write _ _ | hangUp _ | serve _ | accept _ _ => []

def written (id : Nat) (es : List Event) : List UInt8 :=
  es.flatMap fun e => if e.id = id then e.written else []

def readBy (id : Nat) (es : List Event) : List UInt8 :=
  es.flatMap fun e => if e.id = id then e.readBy else []

variable {M : Mux} {s s' : Nat → Option Conn} {es : List Event} {e : Event} {id : Nat} {c : Conn}

theorem written_concat (id : Nat) (es : List Event) (e : Event) :
    written id (es ++ [e]) = written id es ++ if e.id = id then e.written else [] := by
  simp [written]

theorem readBy_concat (id : Nat) (es : List Event) (e : Event) :
    readBy id (es ++ [e]) = readBy id es ++ if e.id = id then e.readBy else [] := by
  simp [readBy]

/-! ## One connection -/

/-- What its owner has of a connection. -/
def Had (c : Conn) (read : List UInt8) : Owner → Prop
  | .mux => c.tape.taken = [] ∧ read = []
  | .raftLn => c.tape.taken = [] ∧ c.tape.unread.head? = some raftRPC ∧ read = []
  | .raft => c.tape.taken = raftRPC :: read
  | .rpc => c.tape.taken = read ∧ c.tape.sent.head? ≠ some raftRPC ∧
      (c.tape.sent = [] → c.closed = true)
  | .dropped => False

structure Good (written read : List UInt8) (dialed : Prop) (c : Conn) : Prop where
  sent : c.tape.sent = written
  dialed : dialed → c.tape.sent.head? = some raftRPC
  had : Had c read c.owner

variable {w r : List UInt8} {dialed : Prop}

theorem Good.send (h : Good w r dialed c) (hopen : c.closed = false) (bytes : List UInt8) :
    Good (w ++ bytes) r dialed { c with tape := c.tape.send bytes } := by
  have hhead : ∀ {xs : List UInt8} {x : UInt8}, xs.head? = some x →
      (xs ++ bytes).head? = some x := by
    intro xs x hx
    simp [List.head?_append, hx]
  refine ⟨congrArg (· ++ bytes) h.sent, fun hd => hhead (h.dialed hd), ?_⟩
  have had := h.had
  cases ho : c.owner with
  | mux | raft | dropped =>
      rw [ho] at had
      exact had
  | raftLn =>
      rw [ho] at had
      exact ⟨had.1, hhead had.2.1, had.2.2⟩
  | rpc =>
      rw [ho] at had
      obtain ⟨htaken, hne, hnil⟩ := had
      -- it is open, so its first byte has been seen
      cases hsent : c.tape.sent with
      | nil => exact absurd (hnil hsent) (by simp [hopen])
      | cons x xs =>
          rw [hsent] at hne
          refine ⟨htaken, ?_, ?_⟩
          · simpa [Tape.send, hsent] using hne
          · simp [Tape.send, hsent]

theorem Good.hangUp (h : Good w r dialed c) : Good w r dialed { c with closed := true } := by
  refine ⟨h.sent, h.dialed, ?_⟩
  have had := h.had
  cases ho : c.owner with
  | mux | raftLn | raft | dropped =>
      rw [ho] at had
      exact had
  | rpc =>
      rw [ho] at had
      exact ⟨had.1, had.2.1, fun _ => rfl⟩

theorem isRaft_iff {bytes : List UInt8} : isRaft bytes = true ↔ bytes.head? = some raftRPC := by
  cases bytes with
  | nil => simp [isRaft]
  | cons x xs => simp [isRaft]

/-- Who gets a connection depends on its first byte. -/
theorem owner_serve (M : Mux) (c : Conn) :
    (c.serve M).owner = if isRaft c.tape.unread then .raftLn else .rpc := by
  rw [Conn.serve, M.serve_matches]
  cases hraft : isRaft c.tape.unread <;> simp [List.findIdx?_cons, hraft, isAny, listener]

theorem Good.serve (h : Good w r dialed c) (ho : c.owner = .mux)
    (hready : c.tape.unread ≠ [] ∨ c.closed = true) : Good w r dialed (c.serve M) := by
  have had := h.had
  rw [ho] at had
  obtain ⟨htaken, rfl⟩ := had
  have hsent : c.tape.sent = c.tape.unread := by
    rw [c.tape.conserved, htaken, List.nil_append]
  refine ⟨h.sent, h.dialed, ?_⟩
  rw [owner_serve]
  by_cases hraft : isRaft c.tape.unread = true
  · rw [if_pos hraft]
    refine ⟨htaken, ?_, rfl⟩
    rw [show (c.serve M).tape.unread = c.tape.unread from M.serve_replays ..]
    exact isRaft_iff.mp hraft
  · rw [if_neg hraft]
    refine ⟨htaken, ?_, fun hnil => ?_⟩
    · rw [show (c.serve M).tape.sent = c.tape.unread from hsent, ne_eq, ← isRaft_iff]
      exact hraft
    · exact hready.resolve_left (not_not.mpr (hsent ▸ hnil))

/-- The first byte is the one that the mux has seen. -/
theorem Good.accept (h : Good w r dialed c) (ho : c.owner = .raftLn) :
    c.accept.1 = none ∧ Good w r dialed c.accept.2 := by
  have had := h.had
  rw [ho] at had
  obtain ⟨htaken, hhead, rfl⟩ := had
  have hread : (c.tape.read 1).1 = [raftRPC] := of_decide_eq_true (isRaft_iff.mpr hhead)
  have haccept : c.accept = (none, { c with tape := (c.tape.read 1).2, owner := .raft }) := by
    unfold Conn.accept
    split
    · next heq =>
      rw [heq] at hread
      cases hread
    · next b tape _ heq =>
      rw [heq] at hread
      rw [if_pos hread, heq]
  rw [haccept]
  refine ⟨rfl, h.sent, h.dialed, ?_⟩
  change (c.tape.read 1).2.taken = [raftRPC]
  rw [Tape.taken_read, htaken, hread, List.nil_append]

theorem Good.read (h : Good w r dialed c) (ho : c.owner = .raft ∨ c.owner = .rpc) (n : Nat) :
    Good w (r ++ (c.tape.read n).1) dialed { c with tape := (c.tape.read n).2 } := by
  refine ⟨h.sent, h.dialed, ?_⟩
  have had := h.had
  rcases ho with ho | ho
  · rw [ho] at had ⊢
    change (c.tape.read n).2.taken = raftRPC :: (r ++ (c.tape.read n).1)
    rw [Tape.taken_read, had]
    rfl
  · rw [ho] at had ⊢
    obtain ⟨htaken, hrest⟩ := had
    exact ⟨by rw [Tape.taken_read, htaken], hrest⟩

/-! ## All connections -/

def Served (es : List Event) (s : Nat → Option Conn) : Prop :=
  ∀ id, match s id with
    | none => written id es = [] ∧ readBy id es = [] ∧ .dial id ∉ es
    | some c => Good (written id es) (readBy id es) (.dial id ∈ es) c

theorem Served.good (h : Served es s) (hc : s id = some c) :
    Good (written id es) (readBy id es) (.dial id ∈ es) c := by
  have := h id
  rw [hc] at this
  exact this

/-- An event leaves the other connections alone. -/
theorem Served.update (h : Served es s)
    (hgood : Good (written e.id es ++ e.written) (readBy e.id es ++ e.readBy)
      (.dial e.id ∈ es ++ [e]) c) : Served (es ++ [e]) (Function.update s e.id (some c)) := by
  intro id
  rw [written_concat, readBy_concat]
  by_cases hid : id = e.id
  · subst hid
    rw [Function.update_self, if_pos rfl, if_pos rfl]
    exact hgood
  · have hdial : .dial id ∈ es ++ [e] ↔ .dial id ∈ es := by
      rw [List.mem_append, List.mem_singleton, or_iff_left]
      rintro rfl
      exact hid rfl
    rw [Function.update_of_ne hid, if_neg (Ne.symm hid), if_neg (Ne.symm hid), List.append_nil,
      List.append_nil, hdial]
    exact h id

theorem Served.step (h : Served es s) (hs : Step M s e s') : Served (es ++ [e]) s' := by
  -- an event that neither connects nor dials
  have hkeep : ∀ {id : Nat} {c c' : Conn} {e : Event}, s id = some c → e.id = id →
      e ≠ .dial id → (Good (written id es) (readBy id es) (.dial id ∈ es) c →
        Good (written id es ++ e.written) (readBy id es ++ e.readBy) (.dial id ∈ es) c') →
      Served (es ++ [e]) (Function.update s id (some c')) := by
    rintro id c c' e hc rfl hne hgood
    refine h.update ?_
    have hdial : .dial e.id ∈ es ++ [e] ↔ .dial e.id ∈ es := by
      rw [List.mem_append, List.mem_singleton, or_iff_left (Ne.symm hne)]
    rw [hdial]
    exact hgood (h.good hc)
  cases hs with
  | @dial id hnone =>
      have hnew := h id
      rw [hnone] at hnew
      refine h.update (e := .dial id) ⟨?_, fun _ => rfl, rfl, ?_⟩
      · exact (congrArg (· ++ [raftRPC]) hnew.1).symm
      · exact congrArg (· ++ []) hnew.2.1
  | @connect id hnone =>
      have hnew := h id
      rw [hnone] at hnew
      refine h.update (e := .connect id) ⟨?_, fun hd => ?_, rfl, ?_⟩
      · exact (congrArg (· ++ []) hnew.1).symm
      · exact absurd (by simpa [Event.id] using hd) hnew.2.2
      · exact congrArg (· ++ []) hnew.2.1
  | write bytes hc hopen =>
      refine hkeep hc rfl nofun fun hgood => ?_
      have := hgood.send hopen bytes
      simpa [Event.written, Event.readBy] using this
  | hangUp hc =>
      refine hkeep hc rfl nofun fun hgood => ?_
      simpa [Event.written, Event.readBy] using hgood.hangUp
  | serve hc ho hready =>
      refine hkeep hc rfl nofun fun hgood => ?_
      simpa [Event.written, Event.readBy] using hgood.serve ho hready
  | accept hc ho hready hacc =>
      refine hkeep hc rfl nofun fun hgood => ?_
      have := (hgood.accept ho).2
      rw [hacc] at this
      simpa [Event.written, Event.readBy] using this
  | read n hc ho hread =>
      refine hkeep hc rfl nofun fun hgood => ?_
      have := hgood.read ho n
      rw [hread] at this
      simpa [Event.written, Event.readBy] using this

theorem served (htr : Trace (Step M) (fun _ => none) es s) : Served es s := by
  induction htr with
  | init => exact fun id => ⟨rfl, rfl, List.not_mem_nil⟩
  | snoc _ hs ih => exact ih.step hs

/-- **Raft and clients are kept apart.** Over any number of connections, in
any order of what peers, clients, the mux, raft and the server do, `Accept`
refuses nothing. Raft has read and can read what was written after the first
byte, which is `RaftRPC`; the server has read and can read all that was
written on connections that do not begin with this byte, and never gets one
that was dialed by a `StreamLayer`. -/
theorem streams_kept_apart (M : Mux) (htr : Trace (Step M) (fun _ => none) es s) :
    (∀ id err, .accept id err ∈ es → err = none) ∧
      ∀ id c, s id = some c →
        (c.owner = .raft → written id es = raftRPC :: (readBy id es ++ c.tape.unread)) ∧
        (c.owner = .rpc → written id es = readBy id es ++ c.tape.unread ∧
          (written id es).head? ≠ some raftRPC) ∧
        (.dial id ∈ es → c.owner ≠ .rpc) := by
  constructor
  · induction htr with
    | init => nofun
    | snoc htr hs ih =>
        intro id err hmem
        rcases List.mem_append.mp hmem with hmem | hmem
        · exact ih id err hmem
        · cases List.mem_singleton.mp hmem
          cases hs with
          | accept hc ho _ hacc =>
              have := (((served htr).good hc).accept ho).1
              rw [hacc] at this
              exact this
  · intro id c hc
    have hgood := (served htr).good hc
    have had := hgood.had
    refine ⟨fun ho => ?_, fun ho => ?_, fun hdial ho => ?_⟩
    · rw [ho] at had
      rw [← hgood.sent, c.tape.conserved, had]
      rfl
    · rw [ho] at had
      obtain ⟨htaken, hne, -⟩ := had
      rw [← hgood.sent]
      refine ⟨?_, hne⟩
      rw [c.tape.conserved, htaken]
    · rw [ho] at had
      exact had.2.1 (hgood.dialed hdial)

/-- A mux that looks at its matchers one by one. -/
def plainMux : Mux where
  serve matchers bytes := (matchers.findIdx? fun matcher => matcher bytes, bytes)
  serve_matches _ _ := rfl
  serve_replays _ _ := rfl

/-- A peer and a client at the same time. -/
theorem trace_two_connections : ∃ s c, Trace (Step plainMux) (fun _ => none)
      [.dial 0, .connect 1, .write 1 [80, 82], .serve 1, .serve 0, .write 0 [7, 8],
        .accept 0 none, .read 1 [80], .read 0 [7]] s ∧ s 0 = some c ∧ c.owner = .raft :=
  ⟨_, _, ((((((((Trace.init.snoc (.dial rfl)).snoc (.connect rfl)).snoc (.write _ rfl rfl)).snoc
    (.serve rfl rfl (.inl (by decide)))).snoc (.serve rfl rfl (.inl (by decide)))).snoc
    (.write _ rfl rfl)).snoc (.accept rfl rfl (.inl (by decide)) rfl)).snoc
    (.read 1 rfl (.inr rfl) rfl)).snoc (.read 1 rfl (.inl rfl) rfl), rfl, rfl⟩

theorem streams_kept_apart_two_connections : ∃ s c, Trace (Step plainMux) (fun _ => none)
      [.dial 0, .connect 1, .write 1 [80, 82], .serve 1, .serve 0, .write 0 [7, 8],
        .accept 0 none, .read 1 [80], .read 0 [7]] s ∧ s 0 = some c ∧
      c.tape.unread = [8] := by
  obtain ⟨s, c, htr, hc, howner⟩ := trace_two_connections
  have hall := ((streams_kept_apart plainMux htr).2 0 c hc).1 howner
  refine ⟨s, c, htr, hc, ?_⟩
  have hcons : [1, 7, 8] = 1 :: ([7] ++ c.tape.unread) := hall
  simpa using hcons.symm

end DistributedLog.StreamLayer
