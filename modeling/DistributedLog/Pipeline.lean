import Mathlib.Data.List.Basic

/-!
# Pipes

A bounded buffer between two processes. One receives an item and then puts
it into the buffer, the other takes one out and then delivers it, and
neither waits for the other unless the buffer is full or empty. So an item
that has been received is in one of four places, and `Pipe` carries that
nothing is lost, doubled or overtaken on the way.
-/

namespace DistributedLog

structure Pipe (α : Type) (cap : Nat) where
  received : List α
  delivered : List α
  -- taken out of the buffer, and not put into it yet
  inHand : Option α
  buffer : List α
  waiting : Option α
  bounded : buffer.length ≤ cap
  conserved : received = delivered ++ (inHand.toList ++ buffer ++ waiting.toList)

namespace Pipe

variable {α : Type} {cap : Nat}

def empty : Pipe α cap := ⟨[], [], none, [], none, Nat.zero_le _, rfl⟩

def inFlight (p : Pipe α cap) : List α := p.inHand.toList ++ p.buffer ++ p.waiting.toList

def receive (p : Pipe α cap) (x : α) (h : p.waiting = none) : Pipe α cap where
  received := p.received ++ [x]
  delivered := p.delivered
  inHand := p.inHand
  buffer := p.buffer
  waiting := some x
  bounded := p.bounded
  conserved := by simp [p.conserved, h]

def send (p : Pipe α cap) (x : α) (h : p.waiting = some x) (hroom : p.buffer.length < cap) :
    Pipe α cap where
  received := p.received
  delivered := p.delivered
  inHand := p.inHand
  buffer := p.buffer ++ [x]
  waiting := none
  bounded := by
    rw [List.length_append]
    exact hroom
  conserved := by simp [p.conserved, h]

def take (p : Pipe α cap) (x : α) (rest : List α) (h : p.inHand = none)
    (hbuf : p.buffer = x :: rest) : Pipe α cap where
  received := p.received
  delivered := p.delivered
  inHand := some x
  buffer := rest
  waiting := p.waiting
  bounded := by
    have hle := p.bounded
    rw [hbuf, List.length_cons] at hle
    omega
  conserved := by simp [p.conserved, h, hbuf]

def deliver (p : Pipe α cap) (x : α) (h : p.inHand = some x) : Pipe α cap where
  received := p.received
  delivered := p.delivered ++ [x]
  inHand := none
  buffer := p.buffer
  waiting := p.waiting
  bounded := p.bounded
  conserved := by simp [p.conserved, h]

inductive Act (α : Type) where
  | receive (x : α)
  | send
  | take (x : α)
  | deliver (x : α)

inductive Step : Pipe α cap → Act α → Pipe α cap → Prop where
  | receive {p : Pipe α cap} (x : α) (h : p.waiting = none) : Step p (.receive x) (p.receive x h)
  | send {p : Pipe α cap} {x : α} (h : p.waiting = some x) (hroom : p.buffer.length < cap) :
      Step p .send (p.send x h hroom)
  | take {p : Pipe α cap} {x : α} {rest : List α} (h : p.inHand = none)
      (hbuf : p.buffer = x :: rest) : Step p (.take x) (p.take x rest h hbuf)
  | deliver {p : Pipe α cap} {x : α} (h : p.inHand = some x) :
      Step p (.deliver x) (p.deliver x h)

/-! ## What a step does to the two ends -/

def Act.received? : Act α → Option α
  | receive x => some x
  | send | take _ | deliver _ => none

def Act.taken? : Act α → Option α
  | take x => some x
  | receive _ | send | deliver _ => none

def Act.delivered? : Act α → Option α
  | deliver x => some x
  | receive _ | send | take _ => none

/-- What has been taken out of the buffer. -/
def taken (p : Pipe α cap) : List α := p.delivered ++ p.inHand.toList

variable {p p' : Pipe α cap} {a : Act α}

theorem Step.received (h : Step p a p') : p'.received = p.received ++ a.received?.toList := by
  cases h with
  | receive => rfl
  | send | take | deliver => exact (List.append_nil _).symm

theorem Step.delivered (h : Step p a p') : p'.delivered = p.delivered ++ a.delivered?.toList := by
  cases h with
  | deliver => rfl
  | receive | send | take => exact (List.append_nil _).symm

theorem Step.taken (h : Step p a p') : p'.taken = p.taken ++ a.taken?.toList := by
  cases h with
  | receive | send => exact (List.append_nil _).symm
  | take h hbuf => simp [Pipe.taken, Pipe.take, Act.taken?, h]
  | deliver h => simp [Pipe.taken, Pipe.deliver, Act.taken?, h]

/-! ## What is in between -/

theorem received_eq_taken (p : Pipe α cap) :
    p.received = p.taken ++ (p.buffer ++ p.waiting.toList) := by
  rw [p.conserved, taken, List.append_assoc, List.append_assoc]

/-- One in either hand, and the buffer. -/
theorem length_inFlight_le (p : Pipe α cap) : p.inFlight.length ≤ cap + 2 := by
  have hbuf := p.bounded
  have hin := Option.length_toList_le (o := p.inHand)
  have hwait := Option.length_toList_le (o := p.waiting)
  simp only [inFlight, List.length_append]
  omega

theorem received_of_idle (h : p.inFlight = []) : p.received = p.delivered := by
  rw [p.conserved]
  exact (congrArg (p.delivered ++ ·) h).trans (List.append_nil _)

/-- How many steps have been taken: an item counts for every one that it has
been through. -/
def moves (p : Pipe α cap) : Nat :=
  4 * p.delivered.length + 3 * p.inHand.toList.length + 2 * p.buffer.length +
    p.waiting.toList.length

theorem Step.moves (h : Step p a p') : p'.moves = p.moves + 1 := by
  cases h with
  | receive x h => simp only [Pipe.moves, Pipe.receive, h, Option.toList_some,
      Option.toList_none, List.length_singleton, List.length_nil]
  | send h hroom =>
      simp only [Pipe.moves, Pipe.send, h, List.length_append, List.length_singleton,
        Option.toList_some, Option.toList_none, List.length_nil]
      omega
  | take h hbuf =>
      simp only [Pipe.moves, Pipe.take, h, hbuf, List.length_cons, Option.toList_some,
        Option.toList_none, List.length_nil]
      omega
  | deliver h =>
      simp only [Pipe.moves, Pipe.deliver, h, List.length_append, List.length_singleton,
        Option.toList_some, Option.toList_none, List.length_nil]
      omega

theorem moves_le (p : Pipe α cap) : p.moves ≤ 4 * p.delivered.length + (2 * cap + 4) := by
  have hbuf := p.bounded
  have hin := Option.length_toList_le (o := p.inHand)
  have hwait := Option.length_toList_le (o := p.waiting)
  simp only [moves]
  omega

end Pipe

/-! ## Streams -/

/-- A stream between two ends, with nothing lost or doubled in between. -/
structure Tape (α : Type) where
  sent : List α
  taken : List α
  unread : List α
  conserved : sent = taken ++ unread

namespace Tape

variable {α : Type}

def empty : Tape α := ⟨[], [], [], rfl⟩

def send (t : Tape α) (xs : List α) : Tape α where
  sent := t.sent ++ xs
  taken := t.taken
  unread := t.unread ++ xs
  conserved := by rw [t.conserved, List.append_assoc]

/-- Up to `n` items. -/
def read (t : Tape α) (n : Nat) : List α × Tape α :=
  (t.unread.take n,
    { sent := t.sent
      taken := t.taken ++ t.unread.take n
      unread := t.unread.drop n
      conserved := by rw [List.append_assoc, List.take_append_drop, t.conserved] })

@[simp] theorem taken_read (t : Tape α) (n : Nat) :
    (t.read n).2.taken = t.taken ++ (t.read n).1 := rfl

end Tape

end DistributedLog
