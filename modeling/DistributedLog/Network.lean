import DistributedLog.Calls
import DistributedLog.Replicator
import Mathlib.Algebra.BigOperators.Ring.Finset
import Mathlib.Algebra.Order.BigOperators.Group.Finset
import Mathlib.Logic.Relation

/-!
# Servers that replicate each other

Servers, each with a log of its own, and calls of `replicate` between them,
each of which consumes the log of one server from offset 0 on and produces
what it gets to another. `Step` interleaves them with each other and with
clients. A `replicate` goes its way as in `Replication.Step`, with all that
can go wrong there; here its stream reads a log and its `Produce` appends to
one, which may refuse the record.

Every log stands for a sequence of records, and a replication is a pipe
between two of these: what it has received is the beginning of one sequence,
and what it has delivered is somewhere in the other, in the same order
(`copied_in_order`). A record that is produced by a replication is a record
like any other, and is consumed by the replications of the server that it
has been produced to. Hence servers that replicate each other in a circle
are not done with a record until a replication of the circle ends
(`cycle_never_settles`).
-/

namespace DistributedLog

namespace Network

structure State (ν κ : Type) where
  logs : ν → LogState
  links : κ → Replication Record

inductive Event (ν κ : Type) where
  | produce (v : ν) (r : Record) (res : Result UInt64)
  | consume (v : ν) (off : UInt64) (res : Result Record)
  | link (k : κ) (e : Replication.Event Record)

/-- `Log.Append`, with offsets and files within the bounds. -/
def Appends (E : Env) (l : LogState) (r : Record) (res : Result UInt64) (l' : LogState) : Prop :=
  l.1.append E l.2 (some r) = (res, l') ∧
    ∀ off, res = .ok off → off.toNat < 2 ^ 64 - 1 ∧ l'.1.FilesFit l'.2

/-- A step of a replication in which no log has a part. -/
def Inside : Replication.Event Record → Prop
  | .pipe (.receive _) | .pipe (.deliver _) | .failed => False
  | _ => True

variable {ν κ : Type}

def State.setLog [DecidableEq ν] (s : State ν κ) (v : ν) (l : LogState) : State ν κ :=
  { s with logs := Function.update s.logs v l }

def State.setLink [DecidableEq κ] (s : State ν κ) (k : κ) (w : Replication Record) : State ν κ :=
  { s with links := Function.update s.links k w }

@[simp] theorem links_setLog [DecidableEq ν] (s : State ν κ) (v : ν) (l : LogState) :
    (s.setLog v l).links = s.links := rfl

@[simp] theorem links_setLink_self [DecidableEq κ] (s : State ν κ) (k : κ)
    (w : Replication Record) :
    (s.setLink k w).links k = w :=
  Function.update_self ..

theorem links_setLink_of_ne [DecidableEq κ] (s : State ν κ) {j k : κ} (h : j ≠ k)
    (w : Replication Record) :
    (s.setLink k w).links j = s.links j :=
  Function.update_of_ne h ..

variable [DecidableEq ν]

/-- Who calls `Leave` and `Close` is left open: a replication may be told to
stop at any time. -/
inductive Step [DecidableEq κ] (E : Env) (src dst : κ → ν) :
    State ν κ → Event ν κ → State ν κ → Prop where
  | produce {s : State ν κ} {v : ν} {r : Record} {res : Result UInt64} {l : LogState} :
      Appends E (s.logs v) r res l → Step E src dst s (.produce v r res) (s.setLog v l)
  | consume {s : State ν κ} {v : ν} {off : UInt64} {res : Result Record} {l : LogState} :
      (s.logs v).1.read E (s.logs v).2 off = (res, l) →
      Step E src dst s (.consume v off res) (s.setLog v l)
  -- the stream is at the offset that is the number of records it has brought
  | receive {s : State ν κ} {k : κ} {x : Record} {w : Replication Record} {l : LogState}
      (closing : Bool) : Replication.Step closing (s.links k) (.pipe (.receive x)) w →
      (s.logs (src k)).1.read E (s.logs (src k)).2
        (UInt64.ofNat (s.links k).pipe.received.length) = (.ok x, l) →
      Step E src dst s (.link k (.pipe (.receive x))) ((s.setLog (src k) l).setLink k w)
  | deliver {s : State ν κ} {k : κ} {x : Record} {w : Replication Record} {off : UInt64}
      {l : LogState} (closing : Bool) :
      Replication.Step closing (s.links k) (.pipe (.deliver x)) w →
      Appends E (s.logs (dst k)) x (.ok off) l →
      Step E src dst s (.link k (.pipe (.deliver x))) ((s.setLog (dst k) l).setLink k w)
  -- the call does not get to the server, or is refused, or its answer is lost
  | failed {s : State ν κ} {k : κ} {x : Record} {w : Replication Record} {l : LogState}
      (closing : Bool) : Replication.Step closing (s.links k) .failed w →
      (s.links k).pipe.inHand = some x →
      (l = s.logs (dst k) ∨ ∃ res, Appends E (s.logs (dst k)) x res l) →
      Step E src dst s (.link k .failed) ((s.setLog (dst k) l).setLink k w)
  | inside {s : State ν κ} {k : κ} {e : Replication.Event Record} {w : Replication Record}
      (closing : Bool) : Replication.Step closing (s.links k) e w → Inside e →
      Step E src dst s (.link k e) (s.setLink k w)

/-- Empty logs, and replications that have not begun. -/
def start (c : ν → Config) : State ν κ where
  logs v := (newLog Directory.empty (c v)).2
  links _ := ⟨"", "", false, .connecting, false, .empty⟩

/-- A record but for its offset, which is given by the log that it is in. -/
def body (r : Record) : Record := { r with offset := 0 }

/-- How many records of clients a server has stored. -/
def stored (v : ν) (es : List (Event ν κ)) : Nat :=
  es.countP fun
    | .produce u _ (.ok _) => u = v
    | _ => false

theorem stored_concat (v : ν) (es : List (Event ν κ)) (e : Event ν κ) :
    stored v (es ++ [e]) = stored v es + stored v [e] :=
  List.countP_append

/-- How many steps the records have taken through the replications. -/
def pipeSteps (es : List (Event ν κ)) : Nat :=
  es.countP fun
    | .link _ (.pipe _) => true
    | _ => false

theorem Step.links [DecidableEq κ] {E : Env} {src dst : κ → ν} {s s' : State ν κ}
    {e : Event ν κ} (h : Step E src dst s e s') :
    pipeSteps [e] = 0 ∧ s'.links = s.links ∨ ∃ k closing e' w, e = .link k e' ∧
      Replication.Step closing (s.links k) e' w ∧ s'.links = Function.update s.links k w := by
  cases h with
  | produce | consume => exact .inl ⟨rfl, rfl⟩
  | receive _ hw | deliver _ hw | failed _ hw | inside _ hw =>
      exact .inr ⟨_, _, _, _, rfl, hw, rfl⟩

/-! ## What a call does to one log -/

section log

/-- The log stands for the sequence, whatever appends it has refused. -/
def Stands (E : Env) (c : Config) (l : LogState) (a : AppendOnly Record) : Prop :=
  ∃ L orphans, l.1.RepWith E c l.2 L orphans ∧ L.Fits E ∧ L.abs = a

variable {E : Env} {c : Config} {l l' : LogState} {a : AppendOnly Record}

theorem Stands.shows (h : Stands E c l a) (hM : c.maxIndexBytes.toNat ≤ 12 * 2 ^ 32) :
    Shows E l a := by
  obtain ⟨L, orphans, hrep, hfits, rfl⟩ := h
  exact hrep.shows hM hfits

theorem Stands.append (h : Stands E c l a) {r : Record} {res : Result UInt64}
    (happ : Appends E l r res l') :
    (∃ off, res = .ok off) ∧ Stands E c l' (a.push r) ∨
      res = .error (.err .eof) ∧ Stands E c l' a := by
  obtain ⟨L, orphans, hrep, hfits, rfl⟩ := h
  obtain ⟨L', orphans', hrep', ⟨hres, rfl, -⟩ | ⟨⟨off, rfl⟩, habs⟩⟩ :=
    hrep.append_cases happ.1 fun off hres => (happ.2 off hres).1
  · exact .inr ⟨hres, _, orphans', hrep', hfits, rfl⟩
  · exact .inl ⟨⟨off, rfl⟩, L', orphans', hrep', hrep'.fits (happ.2 off rfl).2, habs⟩

theorem Stands.read (h : Stands E c l a) (hM : c.maxIndexBytes.toNat ≤ 12 * 2 ^ 32)
    {off : UInt64} {res : Result Record} (hread : l.1.read E l.2 off = (res, l')) :
    Stands E c l' a ∧ res = Log.readOf a off := by
  have hres := (h.shows hM).read off
  obtain ⟨L, orphans, hrep, hfits, rfl⟩ := h
  rw [hread] at hres
  exact ⟨⟨L, orphans, (Log.flushStable_repWith E c L orphans).read hrep hread, hfits, rfl⟩, hres⟩

end log

/-! ## What the servers hold -/

theorem sum_update [DecidableEq κ] (S : Finset κ) (k₀ : κ) (f f' : κ → Nat) {d : Nat}
    (h₀ : f' k₀ = f k₀ + d) (h : ∀ k, k ≠ k₀ → f' k = f k) :
    ∑ k ∈ S, f' k = ∑ k ∈ S, f k + if k₀ ∈ S then d else 0 := by
  have hf : ∀ k, f' k = f k + if k = k₀ then d else 0 := fun k => by
    by_cases hk : k = k₀
    · rw [hk, h₀, if_pos rfl]
    · rw [h k hk, if_neg hk, Nat.add_zero]
  rw [Finset.sum_congr rfl fun k _ => hf k, Finset.sum_add_distrib, Finset.sum_ite_eq']

/-- One record more at one of the servers. -/
def push (a : ν → AppendOnly Record) (v : ν) (r : Record) : ν → AppendOnly Record :=
  Function.update a v ((a v).push r)

theorem items_push (a : ν → AppendOnly Record) (v : ν) (r : Record) (u : ν) :
    (a u).items <+: (push a v r u).items := by
  by_cases hu : u = v
  · subst hu
    rw [push, Function.update_self]
    exact List.prefix_append _ _
  · rw [push, Function.update_of_ne hu]

theorem length_push (a : ν → AppendOnly Record) (v : ν) (r : Record) (u : ν) :
    (push a v r u).items.length = (a u).items.length + if v = u then 1 else 0 := by
  by_cases hu : u = v
  · subst hu
    rw [push, Function.update_self, if_pos rfl]
    exact List.length_append
  · rw [push, Function.update_of_ne hu, if_neg (Ne.symm hu), Nat.add_zero]

theorem base_push (a : ν → AppendOnly Record) (v : ν) (r : Record) (u : ν) :
    (push a v r u).base = (a u).base := by
  by_cases hu : u = v
  · subst hu
    rw [push, Function.update_self]
    rfl
  · rw [push, Function.update_of_ne hu]

variable {E : Env} {c : ν → Config}

theorem stands_update {logs : ν → LogState} {a : ν → AppendOnly Record} {v : ν} {l : LogState}
    {b : AppendOnly Record} (h : ∀ v, Stands E (c v).withDefaults (logs v) (a v))
    (hl : Stands E (c v).withDefaults l b) (u : ν) :
    Stands E (c u).withDefaults (Function.update logs v l u) (Function.update a v b u) := by
  by_cases hu : u = v
  · subst hu
    rw [Function.update_self, Function.update_self]
    exact hl
  · rw [Function.update_of_ne hu, Function.update_of_ne hu]
    exact h u

variable {src dst : κ → ν} [Fintype κ]

/-- The logs hold these records: at least those of clients, `n` of them, and
those that the replications have delivered. -/
structure Copies (E : Env) (c : ν → Config) (src dst : κ → ν) (s : State ν κ) (n : ν → Nat)
    (a : ν → AppendOnly Record) : Prop where
  log : ∀ v, Stands E (c v).withDefaults (s.logs v) (a v)
  base : ∀ v, (a v).base = (c v).initialOffset.toNat
  -- a log that does not begin at 0 never answers a stream
  silent : ∀ k, (a (src k)).base ≠ 0 → (s.links k).pipe.received = []
  received : ∀ k, (s.links k).pipe.received.map body <+: (a (src k)).items.map body
  delivered : ∀ k, ((s.links k).pipe.delivered.map body).Sublist ((a (dst k)).items.map body)
  count : ∀ v, n v + ∑ k with dst k = v, (s.links k).pipe.delivered.length ≤ (a v).items.length

variable {s s' : State ν κ} {n n' : ν → Nat} {a : ν → AppendOnly Record} {v : ν} {k : κ}
  {l : LogState} {w : Replication Record}

/-- A log that goes on standing for the same. -/
theorem Copies.setLog (h : Copies E c src dst s n a)
    (hl : Stands E (c v).withDefaults l (a v)) : Copies E c src dst (s.setLog v l) n a := by
  refine ⟨fun u => ?_, h.base, h.silent, h.received, h.delivered, h.count⟩
  have hu := stands_update h.log hl u
  rw [Function.update_eq_self] at hu
  exact hu

/-- A record more, of a client or of nobody who knows. -/
theorem Copies.grow (h : Copies E c src dst s n a) {r : Record}
    (hl : Stands E (c v).withDefaults l ((a v).push r))
    (hn : ∀ u, n' u ≤ n u + if v = u then 1 else 0) :
    Copies E c src dst (s.setLog v l) n' (push a v r) := by
  refine ⟨stands_update h.log hl, fun u => (base_push a v r u).trans (h.base u), fun k => ?_,
    fun k => ?_, fun k => ?_, fun u => ?_⟩
  · rw [base_push]
    exact h.silent k
  · exact (h.received k).trans ((items_push a v r _).map body)
  · exact (h.delivered k).trans ((items_push a v r _).sublist.map body)
  · have hcount := h.count u
    have hle := hn u
    rw [length_push, links_setLog]
    omega

theorem Copies.length_lt (h : Copies E c src dst s n a) (v : ν) :
    (a v).items.length < 2 ^ 64 := by
  obtain ⟨L, -, -, -, habs⟩ := h.log v
  have hnext : L.next < 2 ^ 64 := L.bounded
  rw [← L.abs_next, habs, AppendOnly.next] at hnext
  omega

theorem Copies.length_received_le (h : Copies E c src dst s n a) (k : κ) :
    (s.links k).pipe.received.length ≤ (a (src k)).items.length := by
  have hle := (h.received k).length_le
  rwa [List.length_map, List.length_map] at hle

theorem Copies.toNat_received (h : Copies E c src dst s n a) (k : κ) :
    (UInt64.ofNat (s.links k).pipe.received.length).toNat = (s.links k).pipe.received.length := by
  have hlt := Nat.lt_of_le_of_lt (h.length_received_le k) (h.length_lt (src k))
  rw [UInt64.toNat_ofNat', Nat.mod_eq_of_lt hlt]

/-- What the stream reads next comes next in the log of the source. -/
theorem Copies.receive (h : Copies E c src dst s n a) {x : Record}
    (hread : Except.ok x = Log.readOf (a (src k)) (UInt64.ofNat (s.links k).pipe.received.length)) :
    (a (src k)).base = 0 ∧
      ((s.links k).pipe.received ++ [x]).map body <+: (a (src k)).items.map body := by
  rw [Log.readOf, h.toNat_received] at hread
  cases hget : (a (src k)).get? (s.links k).pipe.received.length with
  | none =>
      rw [hget] at hread
      cases hread
  | some r =>
      rw [hget] at hread
      cases hread
      have hbase : (a (src k)).base = 0 := by
        by_contra hne
        rw [h.silent k hne, List.length_nil, AppendOnly.get?_of_lt (Nat.pos_of_ne_zero hne)] at hget
        cases hget
      rw [AppendOnly.get?_of_le (by omega), hbase, Nat.sub_zero] at hget
      have htake := List.prefix_iff_eq_take.mp (h.received k)
      have hnext : ((a (src k)).items.map body)[(s.links k).pipe.received.length]? =
          some (body r) := by
        rw [List.getElem?_map, hget]
        rfl
      have hmore := List.take_prefix ((s.links k).pipe.received.length + 1)
        ((a (src k)).items.map body)
      rw [List.length_map] at htake
      rw [List.take_add_one, hnext, ← htake] at hmore
      rw [List.map_append]
      exact ⟨hbase, hmore⟩

section steps

variable [DecidableEq κ]

/-- A replication that moves a record on, or receives the next one of its
source. -/
theorem Copies.setLink (h : Copies E c src dst s n a)
    (hsilent : (a (src k)).base ≠ 0 → w.pipe.received = [])
    (hrec : w.pipe.received.map body <+: (a (src k)).items.map body)
    (hdel : w.pipe.delivered = (s.links k).pipe.delivered) :
    Copies E c src dst (s.setLink k w) n a := by
  have hkeep : ∀ j, ((s.setLink k w).links j).pipe.delivered = (s.links j).pipe.delivered := by
    intro j
    by_cases hj : j = k
    · subst hj
      rw [links_setLink_self, hdel]
    · rw [links_setLink_of_ne _ hj]
  refine ⟨h.log, h.base, fun j hj => ?_, fun j => ?_, fun j => ?_, fun u => ?_⟩
  · by_cases hjk : j = k
    · subst hjk
      rw [links_setLink_self]
      exact hsilent hj
    · rw [links_setLink_of_ne _ hjk]
      exact h.silent j hj
  · by_cases hjk : j = k
    · subst hjk
      rw [links_setLink_self]
      exact hrec
    · rw [links_setLink_of_ne _ hjk]
      exact h.received j
  · rw [hkeep]
    exact h.delivered j
  · simp only [hkeep]
    exact h.count u

/-- A record that a replication delivers. -/
theorem Copies.deliver (h : Copies E c src dst s n a) {x : Record}
    (hl : Stands E (c (dst k)).withDefaults l ((a (dst k)).push x))
    (hrec : w.pipe.received = (s.links k).pipe.received)
    (hdel : w.pipe.delivered = (s.links k).pipe.delivered ++ [x]) :
    Copies E c src dst ((s.setLog (dst k) l).setLink k w) n (push a (dst k) x) := by
  have hkeep : ∀ j, (((s.setLog (dst k) l).setLink k w).links j).pipe.received =
      (s.links j).pipe.received := by
    intro j
    by_cases hj : j = k
    · subst hj
      rw [links_setLink_self, hrec]
    · rw [links_setLink_of_ne _ hj]
      rfl
  refine ⟨stands_update h.log hl, fun u => (base_push a _ x u).trans (h.base u), fun j => ?_,
    fun j => ?_, fun j => ?_, fun u => ?_⟩
  · rw [base_push, hkeep]
    exact h.silent j
  · rw [hkeep]
    exact (h.received j).trans ((items_push a _ x _).map body)
  · by_cases hj : j = k
    · subst hj
      rw [links_setLink_self, hdel, push, Function.update_self, AppendOnly.push,
        List.map_append, List.map_append]
      exact (h.delivered j).append (List.Sublist.refl _)
    · rw [links_setLink_of_ne _ hj]
      exact (h.delivered j).trans ((items_push a _ x _).sublist.map body)
  · have hsum := sum_update (d := 1) (Finset.univ.filter fun j => dst j = u) k
      (fun j => (s.links j).pipe.delivered.length)
      (fun j => (((s.setLog (dst k) l).setLink k w).links j).pipe.delivered.length)
      (by simp only [links_setLink_self, hdel, List.length_append, List.length_singleton])
      (fun j hj => by simp only [links_setLink_of_ne _ hj, links_setLog])
    have hcount := h.count u
    rw [length_push]
    simp only [hsum, Finset.mem_filter, Finset.mem_univ, true_and]
    omega

/-! ## Every run -/

theorem Copies.step (hM : ∀ v, (c v).maxIndexBytes.toNat ≤ 12 * 2 ^ 32) {es : List (Event ν κ)}
    {e : Event ν κ} (h : Copies E c src dst s (fun v => stored v es) a)
    (hstep : Step E src dst s e s') :
    ∃ a', Copies E c src dst s' (fun v => stored v (es ++ [e])) a' := by
  simp only [stored_concat]
  cases hstep with
  | @produce v r res l happ =>
      rcases (h.log v).append happ with ⟨⟨off, rfl⟩, hl⟩ | ⟨rfl, hl⟩
      · refine ⟨_, h.grow hl fun u => ?_⟩
        by_cases hu : v = u <;> simp [stored, hu]
      · exact ⟨a, h.setLog hl⟩
  | consume hread => exact ⟨a, h.setLog ((h.log _).read (Config.withDefaults_le (hM _)) hread).1⟩
  | @receive k x w l closing hw hread =>
      obtain ⟨hl, hres⟩ := (h.log _).read (Config.withDefaults_le (hM _)) hread
      obtain ⟨hbase, hrec⟩ := h.receive hres
      have hpipe := hw.pipe_step
      refine ⟨a, (h.setLog hl).setLink (fun hne => absurd hbase hne) ?_
        (hpipe.delivered.trans (List.append_nil _))⟩
      rw [hpipe.received]
      exact hrec
  | @deliver k x w off l closing hw happ =>
      rcases (h.log _).append happ with ⟨-, hl⟩ | ⟨herr, -⟩
      · have hpipe := hw.pipe_step
        exact ⟨_, h.deliver hl (hpipe.received.trans (List.append_nil _)) hpipe.delivered⟩
      · cases herr
  | @failed k x w l closing hw _ hl =>
      have hpipe : w.pipe = (s.links k).pipe := by
        cases hw
        rfl
      have hlog : ∃ a', Copies E c src dst (s.setLog (dst k) l) (fun v => stored v es) a' := by
        rcases hl with rfl | ⟨res, happ⟩
        · exact ⟨a, h.setLog (h.log _)⟩
        · rcases (h.log _).append happ with ⟨-, hl⟩ | ⟨-, hl⟩
          · exact ⟨_, h.grow hl fun u => Nat.le_add_right _ _⟩
          · exact ⟨a, h.setLog hl⟩
      obtain ⟨a', h'⟩ := hlog
      refine ⟨a', h'.setLink ?_ ?_ (by rw [hpipe]; rfl)⟩
      · rw [hpipe]
        exact h'.silent k
      · rw [hpipe]
        exact h'.received k
  | @inside k e w closing hw he =>
      have hends : w.pipe.received = (s.links k).pipe.received ∧
          w.pipe.delivered = (s.links k).pipe.delivered := by
        rcases hw.pipe_cases with ⟨-, hpipe⟩ | ⟨act, rfl, hpipe⟩
        · rw [hpipe]
          exact ⟨rfl, rfl⟩
        · cases act with
          | receive | deliver => exact he.elim
          | send | take =>
              rw [hpipe.received, hpipe.delivered]
              exact ⟨List.append_nil _, List.append_nil _⟩
      refine ⟨a, h.setLink ?_ ?_ hends.2⟩
      · rw [hends.1]
        exact h.silent k
      · rw [hends.1]
        exact h.received k

theorem copies_run (hM : ∀ v, (c v).maxIndexBytes.toNat ≤ 12 * 2 ^ 32) {es : List (Event ν κ)}
    (htr : Trace (Step E src dst) (start c) es s) :
    ∃ a, Copies E c src dst s (fun v => stored v es) a := by
  induction htr with
  | init =>
      refine ⟨fun v => ⟨(c v).initialOffset.toNat, []⟩, fun v => ?_, fun _ => rfl, fun _ _ => rfl,
        fun k => List.nil_prefix, fun k => List.nil_sublist _, fun v => ?_⟩
      · obtain ⟨l, d, hnew, L, hrep, hfits, habs⟩ := Simulates.start E (c v)
          (Nat.lt_of_le_of_lt (hM v) (by decide))
        simp only [start, hnew]
        exact ⟨L, [], hrep.repWith, hfits, habs⟩
      · simp [stored, start, Pipe.empty]
  | snoc _ hstep ih =>
      obtain ⟨a, h⟩ := ih
      exact h.step hM hstep

/-- **Replications copy in order.** In every run, with clients and
replications that are refused, fail and end in any way, the source of a
replication holds what it has delivered, then what is on its way, 18 records
at most, and then the rest; and its destination holds what it has delivered,
in the same order. -/
theorem copied_in_order (E : Env) (c : ν → Config) (src dst : κ → ν)
    (hM : ∀ v, (c v).maxIndexBytes.toNat ≤ 12 * 2 ^ 32) {es : List (Event ν κ)}
    (htr : Trace (Step E src dst) (start c) es s) :
    ∃ a : ν → AppendOnly Record, (∀ v, Shows E (s.logs v) (a v)) ∧
      ∀ k, ∃ rest, (a (src k)).items.map body = (s.links k).pipe.delivered.map body ++
          (s.links k).pipe.inFlight.map body ++ rest ∧
        (s.links k).pipe.inFlight.length ≤ 18 ∧
        ((s.links k).pipe.delivered.map body).Sublist ((a (dst k)).items.map body) := by
  obtain ⟨a, h⟩ := copies_run hM htr
  refine ⟨a, fun v => (h.log v).shows (Config.withDefaults_le (hM v)), fun k => ?_⟩
  obtain ⟨rest, hrest⟩ := h.received k
  refine ⟨rest, ?_, (s.links k).pipe.length_inFlight_le, h.delivered k⟩
  rw [← hrest, (s.links k).pipe.conserved, List.map_append]
  rfl

end steps

/-- Two servers that replicate each other. -/
def two : Bool → Config := fun _ => ⟨64, 24, 0⟩

theorem two_fits (v : Bool) : (two v).maxIndexBytes.toNat ≤ 12 * 2 ^ 32 := by
  decide +revert

theorem appends_of {E : Env} {l : LogState} (r : Record) (off : UInt64)
    (h : (l.1.append E l.2 (some r)).1 = .ok off) (hoff : off.toNat < 2 ^ 64 - 1)
    (hfit : (l.1.append E l.2 (some r)).2.1.FilesFit (l.1.append E l.2 (some r)).2.2) :
    Appends E l r (.ok off) (l.1.append E l.2 (some r)).2 :=
  ⟨Prod.ext h rfl, fun _ heq => ⟨Except.ok.inj heq ▸ hoff, hfit⟩⟩

theorem read_of {E : Env} {l : LogState} (off : UInt64) (x : Record)
    (h : (l.1.read E l.2 off).1 = .ok x) : l.1.read E l.2 off = (.ok x, (l.1.read E l.2 off).2) :=
  Prod.ext h rfl

/-- A client's record, and its copy. -/
theorem trace_two : ∃ es s, Trace (Step goEnv id not) (start two) es s ∧
    stored false es = 1 ∧ (s.links false).pipe.delivered = [⟨[7], 0, 1, 0⟩] ∧
    ∀ k, (s.links k).phase = .running ∧ (s.links k).receiving = true := by
  have h₁ : Trace (Step goEnv id not) (start two) _ _ :=
    Trace.init.snoc (.inside (k := false) false (.connected rfl) trivial)
  have h₂ := h₁.snoc (.inside (k := true) false (.connected rfl) trivial)
  have h₃ := h₂.snoc (.produce (v := false) (appends_of ⟨[7], 0, 1, 0⟩ 0 (by decide +kernel)
    (by decide) (by decide +kernel)))
  have h₄ := h₃.snoc (.receive (k := false) false (.pipe (.receive ⟨[7], 0, 1, 0⟩ rfl) rfl)
    (read_of _ _ (by decide +kernel)))
  have h₅ := h₄.snoc (.inside (k := false) false (.pipe (.send rfl (by decide)) rfl) trivial)
  have h₆ := h₅.snoc (.inside (k := false) false (.pipe (.take rfl rfl) rfl) trivial)
  have h₇ := h₆.snoc (.deliver (k := false) false (.pipe (.deliver rfl) rfl)
    (appends_of _ 0 (by decide +kernel) (by decide) (by decide +kernel)))
  exact ⟨_, _, h₇, rfl, rfl, fun k => by cases k <;> exact ⟨rfl, rfl⟩⟩

theorem copied_in_order_two_servers :
    ∃ (s : State Bool Bool) (a : Bool → AppendOnly Record),
      (s.links false).pipe.delivered = [⟨[7], 0, 1, 0⟩] ∧ (∀ v, Shows goEnv (s.logs v) (a v)) ∧
      ∀ k, ∃ rest, (a (id k)).items.map body = (s.links k).pipe.delivered.map body ++
          (s.links k).pipe.inFlight.map body ++ rest ∧
        (s.links k).pipe.inFlight.length ≤ 18 ∧
        ((s.links k).pipe.delivered.map body).Sublist ((a (not k)).items.map body) := by
  obtain ⟨es, s, htr, -, hdel, -⟩ := trace_two
  obtain ⟨a, h⟩ := copied_in_order goEnv two id not two_fits htr
  exact ⟨s, a, hdel, h⟩

/-! ## Circles -/

/-- A replication between the servers whose goroutines have not returned. -/
def Feeds (src dst : κ → ν) (s : State ν κ) (u w : ν) : Prop :=
  ∃ k, (s.links k).Alive ∧ src k = u ∧ dst k = w

/-- A replication has something to do. -/
def Busy (E : Env) (src : κ → ν) (s : State ν κ) (k : κ) : Prop :=
  (s.links k).pipe.inFlight ≠ [] ∨ ∃ x, ((s.logs (src k)).1.read E (s.logs (src k)).2
    (UInt64.ofNat (s.links k).pipe.received.length)).1 = .ok x

/-- One that has nothing to do has delivered all that its source holds. -/
theorem Copies.delivered_of_idle (h : Copies E c src dst s n a)
    (hM : ∀ v, (c v).maxIndexBytes.toNat ≤ 12 * 2 ^ 32) (h₀ : (c (src k)).initialOffset = 0)
    (hidle : ¬ Busy E src s k) :
    (s.links k).pipe.delivered.length = (a (src k)).items.length := by
  rw [Busy, not_or, not_not] at hidle
  obtain ⟨hempty, hread⟩ := hidle
  rw [← Pipe.received_of_idle hempty]
  refine Nat.le_antisymm (h.length_received_le k) (Nat.le_of_not_lt fun hlt => hread ?_)
  have hbase : (a (src k)).base = 0 := by
    rw [h.base, h₀]
    rfl
  rw [((h.log _).shows (Config.withDefaults_le (hM _))).read, Log.readOf, h.toNat_received,
    AppendOnly.get?_of_le (by omega), hbase, Nat.sub_zero, List.getElem?_eq_getElem hlt]
  exact ⟨_, rfl⟩

theorem Copies.le_of_feeds (h : Copies E c src dst s n a)
    (hM : ∀ v, (c v).maxIndexBytes.toNat ≤ 12 * 2 ^ 32) (h₀ : ∀ v, (c v).initialOffset = 0)
    (hidle : ∀ k, (s.links k).Alive → ¬ Busy E src s k) {u w : ν}
    (hfeeds : Feeds src dst s u w) : (a u).items.length + n w ≤ (a w).items.length := by
  obtain ⟨k, halive, rfl, rfl⟩ := hfeeds
  have hle := Finset.single_le_sum (f := fun j => (s.links j).pipe.delivered.length)
    (fun j _ => Nat.zero_le _) (Finset.mem_filter.mpr ⟨Finset.mem_univ k, rfl⟩ :
      k ∈ Finset.univ.filter fun j => dst j = dst k)
  simp only [h.delivered_of_idle hM (h₀ _) (hidle k halive)] at hle
  have hcount := h.count (dst k)
  omega

/-- If all that are alive have nothing to do, then a server holds at least
what any server upstream holds, and what its own clients have produced. -/
theorem Copies.le_of_transGen (h : Copies E c src dst s n a)
    (hM : ∀ v, (c v).maxIndexBytes.toNat ≤ 12 * 2 ^ 32) (h₀ : ∀ v, (c v).initialOffset = 0)
    (hidle : ∀ k, (s.links k).Alive → ¬ Busy E src s k) {u w : ν}
    (hfeeds : Relation.TransGen (Feeds src dst s) u w) :
    (a u).items.length + n w ≤ (a w).items.length := by
  induction hfeeds with
  | single hfeeds => exact h.le_of_feeds hM h₀ hidle hfeeds
  | tail _ hfeeds ih =>
      have hlast := h.le_of_feeds hM h₀ hidle hfeeds
      omega

theorem moves_run [DecidableEq κ] {es : List (Event ν κ)}
    (htr : Trace (Step E src dst) (start c) es s) :
    ∑ k, (s.links k).pipe.moves = pipeSteps es := by
  induction htr with
  | init => simp [pipeSteps, start, Pipe.empty, Pipe.moves]
  | @snoc es e s s' _ hstep ih =>
      have hcount : pipeSteps (es ++ [e]) = pipeSteps es + pipeSteps [e] := List.countP_append
      rw [hcount, ← ih]
      rcases hstep.links with ⟨hzero, hlinks⟩ | ⟨k, closing, e', w, rfl, hw, hlinks⟩
      · rw [hlinks, hzero]
        rfl
      · have hmoves : w.pipe.moves =
            (s.links k).pipe.moves + pipeSteps [Event.link (ν := ν) k e'] := by
          rcases hw.pipe_cases with ⟨hne, hpipe⟩ | ⟨act, rfl, hpipe⟩
          · rw [hpipe]
            cases e' with
            | pipe act => exact absurd rfl (hne act)
            | connected | refused | ended | failed | stopped => rfl
          · exact hpipe.moves
        have hsum := sum_update Finset.univ k (fun j => (s.links j).pipe.moves)
          (fun j => (Function.update s.links k w j).pipe.moves)
          (by simp only [Function.update_self]; exact hmoves)
          (fun j hj => by simp only [Function.update_of_ne hj])
        rw [hlinks, hsum, if_pos (Finset.mem_univ k)]

/-- Every record that is delivered is one more in some log. -/
theorem Copies.sum_delivered_le [Fintype ν] (h : Copies E c src dst s n a) :
    ∑ k, (s.links k).pipe.delivered.length ≤ ∑ v, (a v).items.length := by
  rw [← Finset.sum_fiberwise Finset.univ dst]
  refine Finset.sum_le_sum fun v _ => ?_
  have hcount := h.count v
  omega

/-- **Circles are never done.** In every run of servers whose logs begin at
offset 0, the steps that records take through the replications are at most
four for every record that the logs hold, but for the 36 that each
replication may be behind. Once a server has stored a record of a client and
replications that have not ended lead from it back to itself, one of those
that have not ended has something to do. -/
theorem cycle_never_settles [DecidableEq κ] [Fintype ν] (E : Env) (c : ν → Config)
    (src dst : κ → ν) (hM : ∀ v, (c v).maxIndexBytes.toNat ≤ 12 * 2 ^ 32)
    (h₀ : ∀ v, (c v).initialOffset = 0) {es : List (Event ν κ)}
    (htr : Trace (Step E src dst) (start c) es s) :
    ∃ a : ν → AppendOnly Record, (∀ v, Shows E (s.logs v) (a v)) ∧
      pipeSteps es ≤ 4 * ∑ v, (a v).items.length + 36 * Fintype.card κ ∧
      ∀ v, Relation.TransGen (Feeds src dst s) v v → 0 < stored v es →
        ∃ k, (s.links k).Alive ∧ Busy E src s k := by
  obtain ⟨a, h⟩ := copies_run hM htr
  refine ⟨a, fun v => (h.log v).shows (Config.withDefaults_le (hM v)), ?_, fun v hcycle hv => ?_⟩
  · have hmoves := Finset.sum_le_sum fun k (_ : k ∈ Finset.univ) => (s.links k).pipe.moves_le
    rw [Finset.sum_add_distrib, ← Finset.mul_sum, Finset.sum_const_nat fun _ _ => rfl,
      Finset.card_univ, moves_run htr] at hmoves
    have hle := h.sum_delivered_le
    omega
  · by_contra hidle
    have hle := h.le_of_transGen hM h₀ (fun k halive hbusy => hidle ⟨k, halive, hbusy⟩) hcycle
    omega

theorem cycle_never_settles_two_servers :
    ∃ (es : List (Event Bool Bool)) (s : State Bool Bool) (a : Bool → AppendOnly Record),
      Relation.TransGen (Feeds id not s) false false ∧ 0 < stored false es ∧
      (∀ v, Shows goEnv (s.logs v) (a v)) ∧
      pipeSteps es ≤ 4 * ∑ v, (a v).items.length + 36 * Fintype.card Bool ∧
      ∃ k, (s.links k).Alive ∧ Busy goEnv id s k := by
  obtain ⟨es, s, htr, hone, -, halive⟩ := trace_two
  have hcycle : Relation.TransGen (Feeds id not s) false false :=
    .tail (.single ⟨false, halive false, rfl, rfl⟩) ⟨true, halive true, rfl, rfl⟩
  have hv : 0 < stored false es := by
    rw [hone]
    exact Nat.one_pos
  obtain ⟨a, hshows, hsteps, hbusy⟩ :=
    cycle_never_settles goEnv two id not two_fits (fun _ => rfl) htr
  exact ⟨es, s, a, hcycle, hv, hshows, hsteps, hbusy false hcycle hv⟩

end Network

end DistributedLog
