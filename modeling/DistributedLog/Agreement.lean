import DistributedLog.Commands
import Mathlib.Data.List.ReduceOption

/-!
# Replicas of one log

A cluster of `distributed.Log`s: raft commits append commands in one order,
and every node's state machine applies them to a log of its own, in that
order, at its own pace and under its own limits. Nodes are read from in
between, may stop, and may be restarted, after a stop or after a crash.

What raft is relied on for is that there is one order, and that it begins
with the first command again when a node is restarted. With the log store of
`Restart` raft may not have that command any more; then the node gets less
than it does here, and it cannot do more. Everything else is the state
machine's: an append that its log refuses is not made up for, and
a command without a record takes the process down. Still two nodes never
show different records at an offset (`replicas_agree`), and no node ever
shows another record at an offset that was acknowledged
(`acknowledged_everywhere`), as long as they have not been restarted. A
command without a record, once committed, is the last that any node applies
(`unset_record_stops_all`).

A node is concerned by what is committed and by its own events only, so
everything is proved of one node and its history (`run_node`).
-/

namespace DistributedLog

namespace Replicas

structure Node where
  state : LogState
  -- how many of the committed commands have been applied
  applied : Nat
  running : Bool

/-- `distributed.Log.Append`, once the future has its response. -/
def answer : Fsm.Response → Result UInt64
  | .produced off => .ok off
  | .failed e => .error (.err e)
  -- the type assertion does not hold of nil
  | .none => .error .panic

inductive NodeEvent where
  -- with what a caller of `Append` on this node is told
  | apply (record : Option Record) (res : Result UInt64)
  | read (off : UInt64) (res : Result Record)
  | crash
  | restart

/-- What a node does, given the committed commands. There are offsets for all
of them, and no file outgrows the file system. A panic of the state machine
ends the process. A restarted node is given the commands from the first one
on. -/
inductive NodeStep (E : Env) (c : Config) (cs : List (Option Record)) :
    Node → NodeEvent → Node → Prop where
  | apply {s s' : LogState} {k : Nat} {record : Option Record} {res : Result Fsm.Response} :
      cs[k]? = some record → Fsm.apply E s.1 s.2 (Fsm.command E record) = (res, s') →
      c.initialOffset.toNat + k + 1 < 2 ^ 64 → s'.1.FilesFit s'.2 →
      NodeStep E c cs ⟨s, k, true⟩ (.apply record (res.bind answer)) ⟨s', k + 1, res.toBool⟩
  | read {s s' : LogState} {k : Nat} {off : UInt64} {res : Result Record} :
      s.1.read E s.2 off = (res, s') → NodeStep E c cs ⟨s, k, true⟩ (.read off res) ⟨s', k, true⟩
  | crash (s : LogState) (k : Nat) : NodeStep E c cs ⟨s, k, true⟩ .crash ⟨s, k, false⟩
  | restart {s s₁ s₂ : LogState} {k : Nat} : s.1.close s.2 = (.ok (), s₁) →
      newLog s₁.2 c = (.ok (), s₂) → NodeStep E c cs ⟨s, k, true⟩ .restart ⟨s₂, 0, true⟩
  -- of a process that is gone only the files are left
  | recover {s s₂ : LogState} {k : Nat} : newLog s.2 c = (.ok (), s₂) →
      NodeStep E c cs ⟨s, k, false⟩ .restart ⟨s₂, 0, true⟩

theorem NodeStep.of_apply {E : Env} {c : Config} {cs : List (Option Record)} {n n' : Node}
    {record : Option Record} {out : Result UInt64}
    (h : NodeStep E c cs n (.apply record out) n') :
    ∃ res s, n.running = true ∧ cs[n.applied]? = some record ∧
      Fsm.apply E n.state.1 n.state.2 (Fsm.command E record) = (res, s) ∧
      c.initialOffset.toNat + n.applied + 1 < 2 ^ 64 ∧ s.1.FilesFit s.2 ∧
      out = res.bind answer := by
  generalize hev : NodeEvent.apply record out = ev at h
  cases h with
  | apply hcmd happly hoff hfit =>
      cases hev
      exact ⟨_, _, rfl, hcmd, happly, hoff, hfit, rfl⟩
  | read | crash | restart | recover => cases hev

structure State (ι : Type) where
  committed : List (Option Record)
  nodes : ι → Node

inductive Event (ι : Type) where
  | commit (record : Option Record)
  | node (i : ι) (e : NodeEvent)

variable {ι : Type} [DecidableEq ι]

inductive Step (E : Env) (c : ι → Config) : State ι → Event ι → State ι → Prop where
  | commit {cs : List (Option Record)} {ns : ι → Node} (record : Option Record) :
      Step E c ⟨cs, ns⟩ (.commit record) ⟨cs ++ [record], ns⟩
  | node {cs : List (Option Record)} {ns : ι → Node} {i : ι} {e : NodeEvent} {n : Node} :
      NodeStep E (c i) cs (ns i) e n →
      Step E c ⟨cs, ns⟩ (.node i e) ⟨cs, Function.update ns i n⟩

theorem NodeStep.apply_of {E : Env} {c : Config} {cs : List (Option Record)} {n : Node}
    {record : Option Record} (out : Result UInt64) (hrun : n.running = true)
    (hcmd : cs[n.applied]? = some record)
    (hout : (Fsm.apply E n.state.1 n.state.2 (Fsm.command E record)).1.bind answer = out)
    (hoff : c.initialOffset.toNat + n.applied + 1 < 2 ^ 64)
    (hfit : (Fsm.apply E n.state.1 n.state.2 (Fsm.command E record)).2.1.FilesFit
      (Fsm.apply E n.state.1 n.state.2 (Fsm.command E record)).2.2) :
    NodeStep E c cs n (.apply record out)
      ⟨(Fsm.apply E n.state.1 n.state.2 (Fsm.command E record)).2, n.applied + 1,
        (Fsm.apply E n.state.1 n.state.2 (Fsm.command E record)).1.toBool⟩ := by
  obtain ⟨t, k, running⟩ := n
  cases hrun
  subst hout
  exact .apply hcmd rfl hoff hfit

/-- A node on an empty data directory. -/
def startNode (c : Config) : Node := ⟨(newLog Directory.empty c).2, 0, true⟩

def start (c : ι → Config) : State ι := ⟨[], fun i => startNode (c i)⟩

/-- What has happened at one node. -/
def history (i : ι) (es : List (Event ι)) : List NodeEvent :=
  es.filterMap fun
    | .commit _ => none
    | .node j e => if j = i then some e else none

theorem history_commit (i : ι) (es : List (Event ι)) (record : Option Record) :
    history i (es ++ [.commit record]) = history i es := by
  simp [history]

theorem history_node (i : ι) (es : List (Event ι)) (e : NodeEvent) :
    history i (es ++ [.node i e]) = history i es ++ [e] := by
  simp [history]

theorem history_other {i j : ι} (h : j ≠ i) (es : List (Event ι)) (e : NodeEvent) :
    history i (es ++ [.node j e]) = history i es := by
  simp [history, h]

/-- The invariant rule for one node and its history. -/
theorem run_node {E : Env} {c : ι → Config} {i : ι}
    {P : List NodeEvent → List (Option Record) → Node → Prop} (h₀ : P [] [] (startNode (c i)))
    (hcommit : ∀ es cs n record, P es cs n → P es (cs ++ [record]) n)
    (hnode : ∀ es cs n e n', P es cs n → NodeStep E (c i) cs n e n' → P (es ++ [e]) cs n')
    {es : List (Event ι)} {s : State ι} (htr : Trace (Step E c) (start c) es s) :
    P (history i es) s.committed (s.nodes i) := by
  induction htr with
  | init => exact h₀
  | snoc _ hstep ih =>
      cases hstep with
      | commit record =>
          rw [history_commit]
          exact hcommit _ _ _ record ih
      | @node cs ns j e n hn =>
          by_cases hij : j = i
          · subst hij
            rw [history_node]
            simp only [Function.update_self]
            exact hnode _ _ _ _ _ ih hn
          · rw [history_other hij]
            simp only [Function.update_of_ne (Ne.symm hij)]
            exact ih

/-! ## Commands without a record -/

variable {E : Env} {c : Config} {cs : List (Option Record)} {n n' : Node}

theorem append_unset (l : Log) (d : Dir) : (l.append E d none).1 = .error .panic := by
  cases hact : l.activeSegment with
  | none => simp only [Log.append, hact]
  | some t => simp only [Log.append, hact, Segment.append]

theorem apply_unset (l : Log) (d : Dir) :
    (Fsm.apply E l d (Fsm.command E none)).1 = .error .panic := by
  rcases happ : l.append E d none with ⟨res, s'⟩
  obtain rfl : res = .error .panic := by
    rw [← append_unset (E := E) l d, happ]
  rw [Fsm.apply_command (s := (l, d)) happ]

/-- The node has applied nothing that is not committed, and has not got past
a command without a record. -/
structure Stops (cs : List (Option Record)) (n : Node) : Prop where
  applied : n.applied ≤ cs.length
  unset : ∀ k : Nat, cs[k]? = some none →
    n.applied ≤ k ∨ n.applied = k + 1 ∧ n.running = false

theorem Stops.commit (h : Stops cs n) (record : Option Record) : Stops (cs ++ [record]) n := by
  refine ⟨?_, fun k hk => ?_⟩
  · rw [List.length_append]
    exact Nat.le_add_right_of_le h.applied
  · rcases Nat.lt_or_ge k cs.length with hlt | hge
    · rw [List.getElem?_append_left hlt] at hk
      exact h.unset k hk
    · exact .inl (Nat.le_trans h.applied hge)

theorem Stops.step {e : NodeEvent} (h : Stops cs n) (hstep : NodeStep E c cs n e n') :
    Stops cs n' := by
  cases hstep with
  | @apply s s' k record res hcmd happly hoff hfit =>
      refine ⟨(List.getElem?_eq_some_iff.mp hcmd).1, fun m hm => ?_⟩
      rcases Nat.lt_trichotomy k m with hlt | rfl | hgt
      · exact .inl hlt
      · -- this is the command without a record
        rw [hcmd, Option.some.injEq] at hm
        subst hm
        have hpanic := apply_unset (E := E) s.1 s.2
        rw [happly] at hpanic
        simp only at hpanic
        subst hpanic
        exact .inr ⟨rfl, rfl⟩
      · rcases h.unset m hm with hbefore | ⟨-, hdead⟩
        · exact absurd hgt (Nat.not_lt.mpr hbefore)
        · cases hdead
  | read hread => exact ⟨h.applied, h.unset⟩
  | crash s k =>
      refine ⟨h.applied, fun m hm => ?_⟩
      rcases h.unset m hm with hbefore | ⟨-, hdead⟩
      · exact .inl hbefore
      · cases hdead
  | restart | recover => exact ⟨Nat.zero_le _, fun m _ => .inl (Nat.zero_le m)⟩

theorem stops_run {c : ι → Config} {es : List (Event ι)} {s : State ι}
    (htr : Trace (Step E c) (start c) es s) (i : ι) : Stops s.committed (s.nodes i) := by
  refine run_node (P := fun _ cs n => Stops cs n) ⟨Nat.le_refl _, fun k hk => ?_⟩
    (fun _ _ _ record h => h.commit record) (fun _ _ _ _ _ h hstep => h.step hstep) htr
  cases hk

/-- **A record that is not set stops everything.** Once a command without a
record is committed no node gets past it: whoever applies it is gone, nobody
applies a later one, and starting again does not help. -/
theorem unset_record_stops_all (E : Env) (c : ι → Config) {es : List (Event ι)} {s : State ι}
    (htr : Trace (Step E c) (start c) es s) {k : Nat} (hk : s.committed[k]? = some none) (i : ι) :
    (s.nodes i).applied ≤ k ∨ (s.nodes i).applied = k + 1 ∧ (s.nodes i).running = false :=
  (stops_run htr i).unset k hk

/-- Limits of two nodes that number from the same offset on. -/
def twoNodes : Bool → Config
  | false => ⟨64, 24, 5⟩
  | true => ⟨64, 12, 5⟩

theorem unset_record_stops_two_nodes :
    ∃ es s, Trace (Step goEnv twoNodes) (start twoNodes) es s ∧
      s.committed = [none, some ⟨[8], 0, 0, 0⟩] ∧
      ((s.nodes false).applied = 1 ∧ (s.nodes true).applied = 0) ∧
      ∀ i, (s.nodes i).applied ≤ 0 ∨ (s.nodes i).applied = 0 + 1 ∧ (s.nodes i).running = false := by
  have h₁ : Trace (Step goEnv twoNodes) (start twoNodes) _ _ := Trace.init.snoc (.commit none)
  have h₂ := h₁.snoc (.node (i := false) (.apply_of (.error .panic) rfl rfl
    (by decide +kernel) (by decide +kernel) (by decide +kernel)))
  have h₃ := h₂.snoc (.commit (some ⟨[8], 0, 0, 0⟩))
  exact ⟨_, _, h₃, rfl, by decide +kernel,
    fun i => unset_record_stops_all goEnv twoNodes h₃ rfl i⟩

/-! ## What a node has applied -/

/-- The node's log holds the records of the commands that it has applied, or
those before the first that it had no room for. -/
structure Follows (E : Env) (c : Config) (cs : List (Option Record)) (n : Node) (L : Layout)
    (orphans : Bytes) : Prop where
  rep : n.state.1.RepWith E c.withDefaults n.state.2 L orphans
  fits : L.Fits E
  base : L.lowest = c.initialOffset.toNat
  applied : n.applied ≤ cs.length
  records : L.records <+: (cs.take n.applied).reduceOption
  caughtUp : L.records = (cs.take n.applied).reduceOption ∨
    c.withDefaults.maxIndexBytes.toNat < 12 * (L.act.len + 1)

variable {L : Layout} {orphans : Bytes}

theorem Follows.commit (h : Follows E c cs n L orphans) (record : Option Record) :
    Follows E c (cs ++ [record]) n L orphans := by
  have htake : (cs ++ [record]).take n.applied = cs.take n.applied :=
    List.take_append_of_le_length h.applied
  refine ⟨h.rep, h.fits, h.base, ?_, ?_, ?_⟩
  · rw [List.length_append]
    exact Nat.le_add_right_of_le h.applied
  · rw [htake]
    exact h.records
  · rw [htake]
    exact h.caughtUp

/-- One command more: it is appended where it belongs, or it is refused and
so will be all that follow. -/
theorem Follows.apply (h : Follows E c cs n L orphans) {r : Record}
    (hcmd : cs[n.applied]? = some (some r)) {res : Result Fsm.Response} {s : LogState}
    (happly : Fsm.apply E n.state.1 n.state.2 (Fsm.command E (some r)) = (res, s))
    (hoff : c.initialOffset.toNat + n.applied + 1 < 2 ^ 64) (hfit : s.1.FilesFit s.2) :
    (∃ L', res = .ok (.produced (UInt64.ofNat (c.initialOffset.toNat + L.records.length))) ∧
      L.records.length ≤ n.applied ∧ L'.records = L.records ++ [r] ∧
      L'.records = (cs.take (n.applied + 1)).reduceOption ∧
      Follows E c cs ⟨s, n.applied + 1, true⟩ L' []) ∨
    ∃ o, res = .ok (.failed .eof) ∧ Follows E c cs ⟨s, n.applied + 1, true⟩ L o := by
  have hlt : n.applied < cs.length := (List.getElem?_eq_some_iff.mp hcmd).1
  have htake : (cs.take (n.applied + 1)).reduceOption =
      (cs.take n.applied).reduceOption ++ [r] := by
    rw [List.take_add_one, hcmd, List.reduceOption_append]
    rfl
  rcases Nat.lt_or_ge c.withDefaults.maxIndexBytes.toNat (12 * (L.act.len + 1)) with hfull | hroom
  · obtain ⟨l', d', o, happ, hrep⟩ := h.rep.append_full r hfull
    rw [Fsm.apply_command happ] at happly
    cases happly
    refine .inr ⟨o, rfl, hrep, h.fits, h.base, hlt, ?_, .inr hfull⟩
    rw [htake]
    exact h.records.trans (List.prefix_append _ _)
  · have hall : L.records = (cs.take n.applied).reduceOption :=
      h.caughtUp.resolve_right (Nat.not_lt.mpr hroom)
    have hnext : L.next = c.initialOffset.toNat + L.records.length := by
      rw [← L.abs_next, ← h.base]
      rfl
    have hlen : L.records.length ≤ n.applied := by
      have hred := List.reduceOption_length_le (cs.take n.applied)
      rw [hall]
      rw [List.length_take] at hred
      omega
    have hbound : L.next + 1 < 2 ^ 64 := by omega
    obtain ⟨l', d', happ, hrep⟩ := (h.rep.rep_of_room hroom).append r hroom hbound
    rw [hnext] at happ
    rw [Fsm.apply_command happ] at happly
    cases happly
    have habs := L.abs_grow E c.withDefaults r hbound
    have hpush : (L.grow E c.withDefaults r hbound).records = L.records ++ [r] :=
      congrArg AppendOnly.items habs
    have hrecords := hpush
    rw [hall, ← htake] at hrecords
    exact .inl ⟨_, rfl, hlen, hpush, hrecords, hrep.repWith, hrep.fits hfit,
      (congrArg AppendOnly.base habs).trans h.base, hlt, hrecords ▸ List.prefix_refl _,
      .inl hrecords⟩

/-- As long as it has not been restarted and is running. -/
def Tracks (E : Env) (c : Config) (es : List NodeEvent) (cs : List (Option Record)) (n : Node) :
    Prop :=
  .restart ∉ es → n.running = true → ∃ L o, Follows E c cs n L o ∧
    ((∀ record e, .apply record (.error e) ∉ es) →
      L.records = (cs.take n.applied).reduceOption)

theorem Tracks.commit {es : List NodeEvent} (h : Tracks E c es cs n) (record : Option Record) :
    Tracks E c es (cs ++ [record]) n := by
  intro hes hrun
  obtain ⟨L, o, hf, hall⟩ := h hes hrun
  refine ⟨L, o, hf.commit record, fun hno => ?_⟩
  rw [List.take_append_of_le_length hf.applied]
  exact hall hno

theorem Tracks.step {es : List NodeEvent} {e : NodeEvent} (h : Tracks E c es cs n)
    (hstep : NodeStep E c cs n e n') : Tracks E c (es ++ [e]) cs n' := by
  intro hes hrun
  have hlast : e ∈ es ++ [e] := List.mem_append_right _ (List.mem_singleton_self e)
  have hbefore : .restart ∉ es := fun hmem => hes (List.mem_append_left _ hmem)
  cases hstep with
  | @apply s s' k record res hcmd happly hoff hfit =>
      obtain ⟨L, o, hf, -⟩ := h hbefore rfl
      cases record with
      | none =>
          have hpanic := apply_unset (E := E) s.1 s.2
          rw [happly] at hpanic
          simp only at hpanic
          subst hpanic
          cases hrun
      | some r =>
          rcases hf.apply hcmd happly hoff hfit with ⟨L', rfl, -, -, hall, hf'⟩ | ⟨o', rfl, hf'⟩
          · exact ⟨L', [], hf', fun _ => hall⟩
          · exact ⟨L, o', hf', fun hno => absurd hlast (hno _ _)⟩
  | @read s s' k off res hread =>
      obtain ⟨L, o, hf, hall⟩ := h hbefore rfl
      refine ⟨L, o, ⟨(Log.flushStable_repWith E _ L o).read hf.rep hread, hf.fits, hf.base,
        hf.applied, hf.records, hf.caughtUp⟩, fun hno => hall fun record e hmem => ?_⟩
      exact hno record e (List.mem_append_left _ hmem)
  | crash s k => cases hrun
  | restart | recover => exact absurd hlast hes

theorem tracks_run {c : ι → Config} (hM : ∀ i, (c i).maxIndexBytes.toNat < 2 ^ 63)
    {es : List (Event ι)} {s : State ι} (htr : Trace (Step E c) (start c) es s) (i : ι) :
    Tracks E (c i) (history i es) s.committed (s.nodes i) := by
  refine run_node (fun _ _ => ?_) (fun _ _ _ record h => h.commit record)
    (fun _ _ _ _ _ h hstep => h.step hstep) htr
  obtain ⟨l, d, hnew, hrep⟩ := newLog_empty E (c i) rfl (Config.mappable_withDefaults (hM i))
  refine ⟨_, [], ⟨?_, Layout.fits_fresh E _, rfl, Nat.le_refl _, List.prefix_refl _, .inl rfl⟩,
    fun _ => rfl⟩
  simp only [startNode, hnew]
  exact hrep.repWith

/-! ## What the nodes show -/

theorem mem_history {i : ι} {es : List (Event ι)} {e : NodeEvent} :
    e ∈ history i es ↔ .node i e ∈ es := by
  rw [history, List.mem_filterMap]
  constructor
  · rintro ⟨_ | ⟨j, e'⟩, hmem, he⟩
    · cases he
    · simp only [Option.ite_none_right_eq_some, Option.some.injEq] at he
      obtain ⟨rfl, rfl⟩ := he
      exact hmem
  · exact fun hmem => ⟨_, hmem, by simp⟩

theorem Follows.prefix_committed (h : Follows E c cs n L orphans) :
    L.records <+: cs.reduceOption := by
  refine h.records.trans ⟨(cs.drop n.applied).reduceOption, ?_⟩
  rw [← List.reduceOption_append, List.take_append_drop]

theorem Follows.read_eq (h : Follows E c cs n L orphans)
    (hM : c.maxIndexBytes.toNat ≤ 12 * 2 ^ 32) (off : UInt64) :
    (n.state.1.read E n.state.2 off).1 =
      Log.readOf ⟨c.initialOffset.toNat, L.records⟩ off := by
  rw [h.rep.read (Config.withDefaults_le hM) h.fits off, ← h.base]
  rfl

/-- Every record that a node shows has been committed, and its place among
the committed ones gives its offset. -/
theorem Follows.read_committed (h : Follows E c cs n L orphans)
    (hM : c.maxIndexBytes.toNat ≤ 12 * 2 ^ 32) {off : UInt64} {r : Record}
    (hread : (n.state.1.read E n.state.2 off).1 = .ok r) :
    ∃ r₀, cs.reduceOption[off.toNat - c.initialOffset.toNat]? = some r₀ ∧
      r = { r₀ with offset := off } := by
  rw [h.read_eq hM] at hread
  unfold Log.readOf at hread
  split at hread
  · next r₀ hget =>
    refine ⟨r₀, ?_, (Except.ok.inj hread).symm⟩
    by_cases hlo : c.initialOffset.toNat ≤ off.toNat
    · rw [AppendOnly.get?_of_le hlo] at hget
      obtain ⟨xs, hxs⟩ := h.prefix_committed
      rw [← hxs, List.getElem?_append_left (List.getElem?_eq_some_iff.mp hget).1]
      exact hget
    · rw [AppendOnly.get?_of_lt (Nat.not_le.mp hlo)] at hget
      cases hget
  · cases hread

/-- **Replicas agree.** Two running nodes that both return a record at an
offset return the same one, whatever commands were committed, however far
each has got, whatever it has refused, and under whatever limits of its own,
provided that they number from the same offset on and that neither has been
restarted. -/
theorem replicas_agree (E : Env) (c : ι → Config)
    (hM : ∀ i, (c i).maxIndexBytes.toNat ≤ 12 * 2 ^ 32) {es : List (Event ι)} {s : State ι}
    (htr : Trace (Step E c) (start c) es s) {i j : ι}
    (hbase : (c i).initialOffset = (c j).initialOffset) (hi : .node i .restart ∉ es)
    (hj : .node j .restart ∉ es) (hruni : (s.nodes i).running = true)
    (hrunj : (s.nodes j).running = true) {off : UInt64} {r r' : Record}
    (hr : ((s.nodes i).state.1.read E (s.nodes i).state.2 off).1 = .ok r)
    (hr' : ((s.nodes j).state.1.read E (s.nodes j).state.2 off).1 = .ok r') : r = r' := by
  have htracks := tracks_run (fun i => Nat.lt_of_le_of_lt (hM i) (by decide)) htr
  obtain ⟨Li, oi, hfi, -⟩ := htracks i (fun h => hi (mem_history.mp h)) hruni
  obtain ⟨Lj, oj, hfj, -⟩ := htracks j (fun h => hj (mem_history.mp h)) hrunj
  obtain ⟨r₀, hget, rfl⟩ := hfi.read_committed (hM i) hr
  obtain ⟨r₁, hget', rfl⟩ := hfj.read_committed (hM j) hr'
  rw [hbase, hget', Option.some.injEq] at hget
  rw [hget]

theorem trace_twoNodes :
    ∃ es s, Trace (Step goEnv twoNodes) (start twoNodes) es s ∧
      es = [.commit (some ⟨[7], 0, 0, 0⟩)] ++
        .node false (.apply (some ⟨[7], 0, 0, 0⟩) (.ok 5)) ::
          [.commit (some ⟨[8], 0, 0, 0⟩), .node true (.apply (some ⟨[7], 0, 0, 0⟩) (.ok 5))] ∧
      (∀ i, (s.nodes i).running = true ∧ (s.nodes i).applied = 1) ∧
      ∀ i, ((s.nodes i).state.1.read goEnv (s.nodes i).state.2 5).1 = .ok ⟨[7], 5, 0, 0⟩ := by
  have h₁ : Trace (Step goEnv twoNodes) (start twoNodes) _ _ :=
    Trace.init.snoc (.commit (some ⟨[7], 0, 0, 0⟩))
  have h₂ := h₁.snoc (.node (i := false) (.apply_of (.ok 5) rfl rfl (by decide +kernel)
    (by decide +kernel) (by decide +kernel)))
  have h₃ := h₂.snoc (.commit (some ⟨[8], 0, 0, 0⟩))
  have h₄ := h₃.snoc (.node (i := true) (.apply_of (.ok 5) rfl rfl (by decide +kernel)
    (by decide +kernel) (by decide +kernel)))
  exact ⟨_, _, h₄, rfl, by decide +kernel, by decide +kernel⟩

theorem replicas_agree_two_nodes :
    ∃ es s r r', Trace (Step goEnv twoNodes) (start twoNodes) es s ∧
      ((s.nodes false).state.1.read goEnv (s.nodes false).state.2 5).1 = .ok r ∧
      ((s.nodes true).state.1.read goEnv (s.nodes true).state.2 5).1 = .ok r' ∧ r = r' := by
  obtain ⟨es, s, htr, rfl, hrun, hread⟩ := trace_twoNodes
  refine ⟨_, s, _, _, htr, hread false, hread true, ?_⟩
  exact replicas_agree goEnv twoNodes (by decide) htr (i := false) (j := true) rfl (by simp)
    (by simp) (hrun false).1 (hrun true).1 (hread false) (hread true)

theorem committed_mono {c : ι → Config} {s s' : State ι} {e : Event ι} (h : Step E c s e s') :
    ∃ xs, s'.committed = s.committed ++ xs := by
  cases h with
  | commit record => exact ⟨[record], rfl⟩
  | node => exact ⟨[], (List.append_nil _).symm⟩

/-- Where a record stands that has been acknowledged. -/
theorem acknowledged_committed {c : ι → Config} (hM : ∀ i, (c i).maxIndexBytes.toNat < 2 ^ 63)
    {es : List (Event ι)} {s : State ι} (htr : Trace (Step E c) (start c) es s) {i : ι}
    {r : Record} {off : UInt64} :
    ∀ {pre post}, es = pre ++ .node i (.apply (some r) (.ok off)) :: post →
      .node i .restart ∉ pre →
      ∃ k, off.toNat = (c i).initialOffset.toNat + k ∧ s.committed.reduceOption[k]? = some r := by
  induction htr with
  | init =>
      intro pre post hes
      cases pre <;> cases hes
  | @snoc es e s s' htr' hstep ih =>
      intro pre post hes hi
      rcases snoc_eq_split hes with ⟨rfl, rfl⟩ | ⟨post', hes'⟩
      · cases hstep with
        | @node cs ns j e n hn =>
            have htracks := tracks_run hM htr' i fun h => hi (mem_history.mp h)
            obtain ⟨res, t, hrun, hcmd, happly, hoff, hfit, hres⟩ := hn.of_apply
            obtain ⟨L, o, hf, -⟩ := htracks hrun
            rcases hf.apply hcmd happly hoff hfit with
              ⟨L', rfl, hlen, hpush, hall, -⟩ | ⟨o', rfl, -⟩
            · have hle : L.records.length ≤ (ns i).applied := hlen
              refine ⟨L.records.length, ?_, ?_⟩
              · rw [Except.ok.inj hres, UInt64.toNat_ofNat', Nat.mod_eq_of_lt (by omega)]
              · rw [← List.take_append_drop ((ns i).applied + 1) cs, List.reduceOption_append,
                  ← hall, hpush]
                simp
            · cases hres
      · obtain ⟨k, hoff, hget⟩ := ih hes' hi
        obtain ⟨xs, hxs⟩ := committed_mono hstep
        refine ⟨k, hoff, ?_⟩
        rw [hxs, List.reduceOption_append,
          List.getElem?_append_left (List.getElem?_eq_some_iff.mp hget).1]
        exact hget

/-- A running node has applied a record with each command. -/
theorem Stops.length_records (h : Stops cs n) (hrun : n.running = true) :
    (cs.take n.applied).reduceOption.length = n.applied := by
  have hset : ∀ x ∈ cs.take n.applied, x.isSome = true := by
    intro x hx
    obtain ⟨k, hk, rfl⟩ := List.getElem_of_mem hx
    rw [List.length_take] at hk
    rw [List.getElem_take]
    by_contra hnone
    have hunset : cs[k]? = some none := by
      rw [List.getElem?_eq_getElem (by omega), Option.some.injEq]
      simpa using hnone
    rcases h.unset k hunset with hle | ⟨-, hdead⟩
    · omega
    · rw [hrun] at hdead
      cases hdead
  rw [List.reduceOption_length_eq_iff.mpr hset, List.length_take, Nat.min_eq_left h.applied]

/-- **What was acknowledged is the same everywhere.** Once a node has
answered an append with an offset, every running node returns that record at
that offset or says that the offset is out of range; and it returns the
record if it has got that far and has refused no append. None of them may
have been restarted before. -/
theorem acknowledged_everywhere (E : Env) (c : ι → Config)
    (hM : ∀ i, (c i).maxIndexBytes.toNat ≤ 12 * 2 ^ 32) {es pre post : List (Event ι)}
    {s : State ι} (htr : Trace (Step E c) (start c) es s) {i j : ι} {r : Record} {off : UInt64}
    (hack : es = pre ++ .node i (.apply (some r) (.ok off)) :: post)
    (hi : .node i .restart ∉ pre) (hbase : (c i).initialOffset = (c j).initialOffset)
    (hj : .node j .restart ∉ es) (hrun : (s.nodes j).running = true) :
    (((s.nodes j).state.1.read E (s.nodes j).state.2 off).1 = .ok { r with offset := off } ∨
      ((s.nodes j).state.1.read E (s.nodes j).state.2 off).1 =
        .error (.err (.offsetOutOfRange off))) ∧
    ((∀ record e, .node j (.apply record (.error e)) ∉ es) →
      off.toNat < (c j).initialOffset.toNat + (s.nodes j).applied →
      ((s.nodes j).state.1.read E (s.nodes j).state.2 off).1 = .ok { r with offset := off }) := by
  have hM' : ∀ i, (c i).maxIndexBytes.toNat < 2 ^ 63 := fun i =>
    Nat.lt_of_le_of_lt (hM i) (by decide)
  obtain ⟨k, hoff, hget⟩ := acknowledged_committed hM' htr hack hi
  obtain ⟨L, o, hf, hall⟩ := tracks_run hM' htr j (fun h => hj (mem_history.mp h)) hrun
  have hle : (c j).initialOffset.toNat ≤ off.toNat := by rw [hoff, hbase]; omega
  have hk : off.toNat - (c j).initialOffset.toNat = k := by rw [hoff, hbase]; omega
  rw [hf.read_eq (hM j)]
  obtain ⟨xs, hxs⟩ := hf.prefix_committed
  have hshown : k < L.records.length →
      Log.readOf ⟨(c j).initialOffset.toNat, L.records⟩ off = .ok { r with offset := off } := by
    intro hlt
    rw [← hxs, List.getElem?_append_left hlt] at hget
    have hget' : AppendOnly.get? ⟨(c j).initialOffset.toNat, L.records⟩ off.toNat = some r := by
      rw [AppendOnly.get?_of_le hle, hk]
      exact hget
    simp only [Log.readOf, hget']
  refine ⟨?_, fun hno hlt => hshown ?_⟩
  · by_cases hlt : k < L.records.length
    · exact .inl (hshown hlt)
    · refine .inr (Log.readOf_eq_error_iff.mpr (AppendOnly.get?_eq_none_iff.mpr (.inr ?_)))
      simp only [AppendOnly.next]
      omega
  · have hlen := (stops_run htr j).length_records hrun
    rw [← hall fun record e hmem => hno record e (mem_history.mp hmem)] at hlen
    omega

theorem acknowledged_everywhere_two_nodes :
    ∃ es s, Trace (Step goEnv twoNodes) (start twoNodes) es s ∧
      .node false (.apply (some ⟨[7], 0, 0, 0⟩) (.ok 5)) ∈ es ∧
      ((s.nodes true).state.1.read goEnv (s.nodes true).state.2 5).1 = .ok ⟨[7], 5, 0, 0⟩ := by
  obtain ⟨es, s, htr, hes, hrun, -⟩ := trace_twoNodes
  refine ⟨es, s, htr, by simp [hes], ?_⟩
  have hack := acknowledged_everywhere goEnv twoNodes (by decide) htr (j := true) hes (by simp) rfl
    (by simp [hes]) (hrun true).1
  refine hack.2 (by simp [hes]) ?_
  rw [(hrun true).2]
  decide

end Replicas

end DistributedLog
