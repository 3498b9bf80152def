import DistributedLog.Unmapped
import Mathlib.Data.List.Induction

/-!
# Draining a snapshot while commands are applied

Raft calls `fsm.Snapshot` and then reads the reader it returns while it goes
on applying commands. The reader shares the stores of the live log, so a
record applied before the last read is read with the rest: it is appended to
the segment that was active when the snapshot was taken, and that segment is
read last. The same goes for a record that was refused because the index was
full: its frame is in the store.

`Drained` is the invariant of the drain: what has been read and what is
left make up the image of the segments that the snapshot was taken of, as
they are now. The image is a point in time exactly when no record had been
refused before the snapshot and no read comes after an apply
(`snapshot_pointInTime_iff`).
-/

namespace DistributedLog

/-! ## The bytes of a layout -/

/-- All the bytes of the stores up to and including the one at `k`. -/
def Layout.image (E : Env) (L : Layout) (orphans : Bytes) (k : Nat) : Bytes :=
  L.leftWith E orphans ((List.range (k + 1)).map (·, 0))

namespace Layout

variable {E : Env} (L : Layout)

theorem bytes_act : L.bytes E L.full.length = frames E L.act.base L.act.records := by
  simp [bytes, blocks]

theorem bytes_of_lt {i : Nat} (h : i < L.full.length) {L' : Layout}
    (hpre : ∃ post, L'.blocks = L.full ++ post) : L'.bytes E i = L.bytes E i := by
  obtain ⟨post, hpost⟩ := hpre
  have hL : L.blocks = L.full ++ [L.act] := rfl
  rw [bytes, bytes, hpost, hL, List.getElem?_append_left h, List.getElem?_append_left h]

theorem bytes_push (r : Record) (h : L.next + 1 < 2 ^ 64) :
    (L.push r h).bytes E L.full.length = L.bytes E L.full.length ++
      frames E (L.act.base + UInt64.ofNat L.act.records.length) [r] := by
  have hpush : (L.push r h).bytes E L.full.length =
      frames E L.act.base (L.act.records ++ [r]) := (L.push r h).bytes_act
  rw [hpush, frames_append, L.bytes_act]

theorem bytes_roll (h : 0 < L.act.len) :
    (L.roll h).bytes E L.full.length = L.bytes E L.full.length := by
  rw [L.bytes_act]
  simp [bytes, blocks, roll]

/-- Blocks one after the other hold the frames of all their records. -/
theorem frames_of_tiles {a z : Nat} {bs : List Block}
    (h : Tiles Block.start Block.len a bs z) :
    (bs.flatMap fun b => frames E b.base b.records) =
      frames E (UInt64.ofNat a) (bs.flatMap Block.records) := by
  induction h with
  | nil => rfl
  | @cons b bs z hpos _ ih =>
      have hbase : UInt64.ofNat b.start = b.base := UInt64.ofNat_toNat
      rw [List.flatMap_cons, List.flatMap_cons, frames_append, ih, hbase, UInt64.ofNat_add, hbase]
      rfl

/-- The image of the whole layout: the frames of all its records, and then
the orphans. -/
theorem image_eq (orphans : Bytes) : L.image E orphans L.full.length =
    frames E (UInt64.ofNat L.lowest) L.records ++ orphans := by
  have hflat : ∀ bs : List Block, ((List.range bs.length).flatMap fun i =>
      bs[i]?.elim [] fun b => frames E b.base b.records) =
        bs.flatMap fun b => frames E b.base b.records := by
    intro bs
    induction bs using List.reverseRecOn with
    | nil => rfl
    | append_singleton bs b ih =>
        rw [List.length_append, List.length_singleton, List.range_succ, List.flatMap_append,
          List.flatMap_append, ← ih]
        congr 1
        · refine List.flatMap_congr fun i hi => ?_
          rw [List.getElem?_append_left (List.mem_range.mp hi)]
        · simp
  have hlen := L.tiles.length_flatMap Block.records fun _ => rfl
  have hact : UInt64.ofNat L.lowest + UInt64.ofNat (L.full.flatMap Block.records).length =
      L.act.base := by
    rw [← UInt64.ofNat_add, show L.lowest + (L.full.flatMap Block.records).length = L.act.start by
      omega]
    exact UInt64.ofNat_toNat
  have hfull : ((List.range L.full.length).flatMap fun i => L.bytesWith E orphans i) =
      L.full.flatMap fun b => frames E b.base b.records := by
    rw [← hflat]
    refine List.flatMap_congr fun i hi => ?_
    have hlt := List.mem_range.mp hi
    rw [bytesWith_of_lt hlt, bytes, blocks, List.getElem?_append_left hlt]
  have himage : L.image E orphans L.full.length =
      (L.full.flatMap fun b => frames E b.base b.records) ++
        (frames E L.act.base L.act.records ++ orphans) := by
    rw [← hfull, ← bytesWith_act, image, leftWith, List.range_succ]
    simp [List.flatMap_map]
  rw [himage, records, blocks, List.flatMap_append, frames_of_tiles L.tiles, frames_append, hact]
  simp

end Layout

variable {E : Env} {c : Config}

/-- What growing makes of the bytes of the segments. -/
theorem Layout.bytes_grow (L : Layout) (r : Record) (hnext : L.next + 1 < 2 ^ 64) :
    L.full.length ≤ (L.grow E c r hnext).full.length ∧
      (∀ i < L.full.length, (L.grow E c r hnext).bytes E i = L.bytes E i) ∧
      (L.grow E c r hnext).bytes E L.full.length = L.bytes E L.full.length ++
        frames E (L.act.base + UInt64.ofNat L.act.records.length) [r] := by
  unfold Layout.grow
  split
  case isFalse =>
    exact ⟨Nat.le_refl _, fun i hi => L.bytes_of_lt hi ⟨_, rfl⟩, L.bytes_push r hnext⟩
  case isTrue =>
    refine ⟨?_, fun i hi => L.bytes_of_lt hi ⟨_, List.append_assoc ..⟩, ?_⟩
    · simp [Layout.roll, Layout.push]
    · exact ((L.push r hnext).bytes_roll (L.len_push r hnext)).trans (L.bytes_push r hnext)

/-- What an append does to the bytes of a layout: it lengthens those of the
active segment, with or without an entry for the record. -/
theorem Log.RepWith.append_bytes {l l' : Log} {d d' : Dir} {L : Layout} {orphans : Bytes}
    (h : l.RepWith E c d L orphans) {r : Record} {res : Result UInt64}
    (happ : l.append E d (some r) = (res, l', d'))
    (hoff : ∀ off, res = .ok off → off.toNat < 2 ^ 64 - 1) :
    ∃ L' orphans' δ, l'.RepWith E c d' L' orphans' ∧ δ ≠ [] ∧
      L.full.length ≤ L'.full.length ∧
      (∀ i < L.full.length, L'.bytesWith E orphans' i = L.bytesWith E orphans i) ∧
      L'.bytesWith E orphans' L.full.length = L.bytesWith E orphans L.full.length ++ δ ∧
      ((∃ off hnext, res = .ok off ∧ orphans = [] ∧ orphans' = [] ∧ L' = L.grow E c r hnext) ∨
        (∃ e, res = .error (.err e)) ∧ orphans' ≠ [] ∧ L' = L) := by
  rcases Nat.lt_or_ge c.maxIndexBytes.toNat (12 * (L.act.len + 1)) with hroom | hroom
  · obtain ⟨l₁, d₁, p, happ₁, hrep⟩ := h.append_orphan r hroom
    rw [happ, Prod.mk.injEq, Prod.mk.injEq] at happ₁
    obtain ⟨rfl, rfl, rfl⟩ := happ₁
    have hne : frame p ≠ [] := by
      rw [← List.length_pos_iff, length_frame, lenWidth]
      omega
    refine ⟨L, orphans ++ frame p, frame p, hrep, hne, Nat.le_refl _, fun i hi => ?_, ?_,
      .inr ⟨⟨_, rfl⟩, by simp [hne], rfl⟩⟩
    · rw [Layout.bytesWith_of_lt hi, Layout.bytesWith_of_lt hi]
    · rw [Layout.bytesWith_act, Layout.bytesWith_act, List.append_assoc]
  · obtain rfl : orphans = [] := by
      by_contra hne
      have := h.stuck hne
      omega
    obtain ⟨hplain, off, rfl, hnext⟩ := h.append_room hroom happ hoff
    have hne : frames E (L.act.base + UInt64.ofNat L.act.records.length) [r] ≠ [] := by
      rw [← List.length_pos_iff, frames, List.length_append, length_frame, lenWidth]
      omega
    have hgrow := L.bytes_grow (c := c) (E := E) r hnext
    refine ⟨L.grow E c r hnext, [], _, (hplain.append_ok happ hnext).2.repWith, hne, hgrow.1, ?_,
      ?_, .inl ⟨off, hnext, rfl, rfl, rfl, rfl⟩⟩
    · simpa only [Layout.bytesWith_nil] using hgrow.2.1
    · simpa only [Layout.bytesWith_nil] using hgrow.2.2

/-! ## The log that the snapshot is taken of -/

namespace PointInTime

/-- What happens to the state machine's log. An `fsm.Apply` that panics ends
the process, and with it the run. -/
inductive Event where
  | apply (data : Bytes) (res : Fsm.Response)
  | read (off : UInt64)
  | restore (stream : Bytes)
  | restart

inductive Step (E : Env) (c : Config) : LogState → Event → LogState → Prop where
  | apply {l l' : Log} {d d' : Dir} {data : Bytes} {res : Fsm.Response} :
      Fsm.apply E l d data = (.ok res, l', d') → Step E c (l, d) (.apply data res) (l', d')
  | read {l l' : Log} {d d' : Dir} {off : UInt64} {res : Result Record} :
      l.read E d off = (res, l', d') → Step E c (l, d) (.read off) (l', d')
  | restore {l l' : Log} {d d' : Dir} {stream : Bytes} {res : Result Unit} :
      Fsm.restore E l d stream = (res, l', d') → Step E c (l, d) (.restore stream) (l', d')
  | restart {l l₁ l' : Log} {d d₁ d' : Dir} :
      l.close d = (.ok (), l₁, d₁) → newLog d₁ c = (.ok (), l', d') →
      Step E c (l, d) .restart (l', d')

/-- The record of an apply that was answered with an offset. -/
def Event.record? (E : Env) : Event → Option Record
  | .apply data (.produced _) => Fsm.logged E data
  | _ => none

/-- The records applied. -/
def applied (E : Env) (es : List Event) : List Record := es.filterMap (Event.record? E)

/-- The event is the apply of a record that was answered with an error. -/
def Event.Refused (E : Env) : Event → Prop
  | .apply data (.failed _) => (Fsm.logged E data).isSome = true
  | _ => False

/-- The offset assigned, if any, is not the last one there is. -/
def Event.Bounded : Event → Prop
  | .apply _ (.produced off) => off.toNat < 2 ^ 64 - 1
  | _ => True

theorem applied_snoc (es : List Event) (e : Event) :
    applied E (es ++ [e]) = applied E es ++ (e.record? E).toList := by
  rw [applied, List.filterMap_append, applied, List.append_cancel_left_eq]
  cases h : e.record? E with
  | none => rw [List.filterMap_cons_none h, List.filterMap_nil, Option.toList_none]
  | some r => rw [List.filterMap_cons_some h, List.filterMap_nil, Option.toList_some]

/-- The log stands for the records applied, and has orphans exactly if one
was refused. -/
structure Stands (E : Env) (c : Config) (es : List Event) (s : LogState) (L : Layout)
    (orphans : Bytes) : Prop where
  rep : s.1.RepWith E c s.2 L orphans
  abs : L.abs = ⟨c.initialOffset.toNat, applied E es⟩
  orphans : orphans = [] ↔ ∀ e ∈ es, ¬ e.Refused E

/-- Nothing has been applied, and nothing refused. -/
theorem Stands.same {es : List Event} {e : Event} {s s' : LogState} {L : Layout} {orphans : Bytes}
    (h : Stands E c es s L orphans) (hrep : s'.1.RepWith E c s'.2 L orphans)
    (hnone : e.record? E = none) (hok : ¬ e.Refused E) :
    Stands E c (es ++ [e]) s' L orphans := by
  refine ⟨hrep, by rw [h.abs, applied_snoc, hnone, Option.toList_none, List.append_nil], ?_⟩
  simp [h.orphans, or_imp, forall_and, hok]

theorem Stands.apply {es : List Event} {l l' : Log} {d d' : Dir} {L : Layout} {orphans : Bytes}
    {data : Bytes} {res : Fsm.Response} (h : Stands E c es (l, d) L orphans)
    (happly : Fsm.apply E l d data = (.ok res, l', d')) (hb : (Event.apply data res).Bounded) :
    ∃ L' orphans', Stands E c (es ++ [.apply data res]) (l', d') L' orphans' := by
  rcases Fsm.apply_cases happly with
    ⟨r, off, hlog, happ, rfl⟩ | ⟨r, e, hlog, happ, rfl⟩ | ⟨hlog, rfl, rfl, hres⟩
  · obtain ⟨L', o', -, hrep, -, -, -, -, ⟨off', hnext, -, rfl, rfl, rfl⟩ | ⟨⟨e, he⟩, -⟩⟩ :=
      h.rep.append_bytes happ fun off' heq => by cases heq; exact hb
    · refine ⟨_, [], hrep, ?_, ?_⟩
      · rw [L.abs_grow, h.abs, applied_snoc, Event.record?, hlog]
        rfl
      · have hold := h.orphans.mp rfl
        simp only [true_iff]
        intro e he
        rcases List.mem_append.mp he with he | he
        · exact hold e he
        · rw [List.mem_singleton.mp he]
          exact id
    · cases he
  · obtain ⟨L', o', -, hrep, -, -, -, -, ⟨off', -, hoff, -⟩ | ⟨-, hne, rfl⟩⟩ :=
      h.rep.append_bytes happ fun off' heq => by cases heq
    · cases hoff
    · refine ⟨L', o', hrep, ?_, ?_⟩
      · have hnone : (Event.apply data (.failed e)).record? E = none := rfl
        rw [h.abs, applied_snoc, hnone, Option.toList_none, List.append_nil]
      · refine ⟨fun hnil => absurd hnil hne, fun hall => ?_⟩
        refine absurd ?_ (hall (.apply data (.failed e)) (by simp))
        rw [Event.Refused, hlog]
        rfl
  · refine ⟨L, orphans, h.same h.rep ?_ ?_⟩
    · cases res with
      | produced off => exact absurd rfl (hres off)
      | _ => rfl
    · cases res with
      | failed e =>
          rw [Event.Refused, hlog]
          exact Bool.false_ne_true
      | _ => exact id

/-- A run leaves a log that stands for the records applied, or one that a
restore has closed. -/
theorem stands_run (hM : c.maxIndexBytes.toNat ≤ 12 * 2 ^ 32) {es : List Event} {s : LogState}
    (htr : Trace (Step E c) (newLog Directory.empty c).2 es s) (hb : ∀ e ∈ es, e.Bounded) :
    (∃ L orphans, Stands E c.withDefaults es s L orphans) ∨ s.1.Unmapped := by
  induction htr with
  | init =>
      obtain ⟨l, d, hnew, hrep⟩ := newLog_empty E c rfl (Config.mappable_withDefaults (by omega))
      rw [hnew]
      exact .inl ⟨_, [], hrep.repWith, rfl, by simp⟩
  | @snoc es e s s' _ hstep ih =>
      have he := hb e (by simp)
      rcases ih fun e he => hb e (List.mem_append_left _ he) with ⟨L, orphans, h⟩ | h
      · cases hstep with
        | apply happly => exact .inl (h.apply happly he)
        | read hread =>
            exact .inl ⟨L, orphans,
              h.same ((Log.flushStable_repWith E _ L orphans).read h.rep hread) rfl id⟩
        | @restore l l' d d' stream res hrestore =>
            cases hbegins : Fsm.begins E stream with
            | false =>
                have hsame := Fsm.restore_of_not_begins hbegins l d
                rw [hrestore] at hsame
                cases hsame
                exact .inl ⟨L, orphans, h.same h.rep rfl id⟩
            | true =>
                obtain ⟨ss, t, hseg, -⟩ := h.rep.segments
                obtain ⟨l₁, hrestore₁, hl₁⟩ := Fsm.restore_of_sound h.rep.sound h.rep.mappable
                  (by rw [hseg]; simp) hbegins
                rw [hrestore, Prod.mk.injEq, Prod.mk.injEq] at hrestore₁
                obtain ⟨-, rfl, rfl⟩ := hrestore₁
                exact .inr hl₁
        | restart hclose hnew =>
            obtain ⟨l₁, d₁, l₂, d₂, hclose₁, hnew₁, hrep⟩ :=
              h.rep.reopen rfl (Config.withDefaults_le hM)
            rw [hclose, Prod.mk.injEq, Prod.mk.injEq] at hclose₁
            obtain ⟨-, rfl, rfl⟩ := hclose₁
            rw [hnew, Prod.mk.injEq, Prod.mk.injEq] at hnew₁
            obtain ⟨-, rfl, rfl⟩ := hnew₁
            exact .inl ⟨L, orphans, h.same hrep rfl id⟩
      · cases hstep with
        | @apply l l' d d' data res happly =>
            have h' := (Fsm.apply_unmapped (E := E) (d := d) h data).2
            rw [happly] at h'
            exact .inr h'
        | @read l l' d d' off res hread =>
            obtain ⟨e, hread₁⟩ := h.read (d := d) E off
            rw [hread, Prod.mk.injEq, Prod.mk.injEq] at hread₁
            obtain ⟨-, rfl, rfl⟩ := hread₁
            exact .inr h
        | @restore l l' d d' stream res hrestore =>
            obtain ⟨_, l₁, hrestore₁, h₁⟩ := Fsm.restore_unmapped (E := E) (d := d) h stream
            rw [hrestore, Prod.mk.injEq, Prod.mk.injEq] at hrestore₁
            obtain ⟨-, rfl, rfl⟩ := hrestore₁
            exact .inr h₁
        | restart hclose _ =>
            obtain ⟨e, hclose₁⟩ := Log.Unmapped.close h
            rw [hclose, Prod.mk.injEq] at hclose₁
            cases hclose₁.1

/-! ## The drain -/

/-- A drain under way: the log, the reader, what it has returned, and
whether it has returned `io.EOF`. -/
structure Draining where
  state : LogState
  reader : Reader
  out : Bytes
  done : Bool

/-- `fsm.Snapshot`. -/
def snapshot (s : LogState) : Draining := ⟨s, s.1.reader, [], false⟩

inductive Call where
  | apply (data : Bytes) (res : Fsm.Response)
  | read (n : Nat)
deriving DecidableEq

/-- `fsm.Apply`, at any time and with whatever result, and the successive
reads, up to the one that returns `io.EOF`. -/
inductive DrainStep (E : Env) : Draining → Call → Draining → Prop where
  | apply {l l' : Log} {d d' : Dir} {rd : Reader} {out : Bytes} {done : Bool} {data : Bytes}
      {res : Fsm.Response} :
      Fsm.apply E l d data = (.ok res, l', d') →
      DrainStep E ⟨(l, d), rd, out, done⟩ (.apply data res) ⟨(l', d'), rd, out, done⟩
  | read {l l' : Log} {d d' : Dir} {rd rd' : Reader} {out bs : Bytes} {n : Nat} {e : Option Err} :
      rd.read n l d = (.ok (bs, e), rd', l', d') →
      DrainStep E ⟨(l, d), rd, out, false⟩ (.read n)
        ⟨(l', d'), rd', out ++ bs, decide (e = some .eof)⟩

def Call.Bounded : Call → Prop
  | .apply _ (.produced off) => off.toNat < 2 ^ 64 - 1
  | _ => True

/-- The call is the apply of a record. -/
def Call.appends (E : Env) : Call → Bool
  | .apply data _ => (Fsm.logged E data).isSome
  | .read _ => false

/-- No read comes after the apply of a record. -/
def NoLateRead (E : Env) (cs : List Call) : Prop :=
  cs.Pairwise fun a b => a.appends E = true → ∀ n, b ≠ .read n

theorem noLateRead_apply {cs : List Call} {data : Bytes} {res : Fsm.Response} :
    NoLateRead E (cs ++ [.apply data res]) ↔ NoLateRead E cs := by
  rw [NoLateRead, List.pairwise_append]
  refine ⟨fun h => h.1, fun h => ⟨h, List.pairwise_singleton _ _, ?_⟩⟩
  intro a _ b hb _ n
  rw [List.mem_singleton.mp hb]
  exact nofun

theorem noLateRead_read {cs : List Call} {n : Nat} :
    NoLateRead E (cs ++ [.read n]) ↔ cs.any (Call.appends E) = false := by
  rw [NoLateRead, List.pairwise_append, List.any_eq_false]
  constructor
  · rintro ⟨-, -, h⟩ call hcall happ
    exact h call hcall _ (List.mem_singleton_self _) happ n rfl
  · intro h
    exact ⟨List.pairwise_of_forall_mem_list fun a ha b _ happ => absurd happ (h a ha),
      List.pairwise_singleton _ _, fun a ha b _ happ => absurd happ (h a ha)⟩

theorem noLateRead_of_any {cs : List Call} (h : cs.any (Call.appends E) = false) :
    NoLateRead E cs := by
  rw [List.any_eq_false] at h
  exact List.pairwise_of_forall_mem_list fun a ha b _ happ => absurd happ (h a ha)

/-- A reader that ends at position `k` sees what is appended there. -/
theorem left_grows {L L' : Layout} {o o' δ : Bytes} {k : Nat} {rd : Reader} (hne : rd ≠ [])
    (hpos : rd.map Prod.fst <:+ List.range (k + 1)) (hlast : k ≤ L.full.length)
    (hwithin : ∀ p ∈ rd, p.2 ≤ (L.bytesWith E o p.1).length)
    (hsame : ∀ i < L.full.length, L'.bytesWith E o' i = L.bytesWith E o i)
    (hact : L'.bytesWith E o' L.full.length = L.bytesWith E o L.full.length ++ δ) :
    L'.leftWith E o' rd = L.leftWith E o rd ++ if k = L.full.length then δ else [] := by
  obtain ⟨pre, p, rfl⟩ : ∃ pre p, rd = pre ++ [p] :=
    ⟨rd.dropLast, rd.getLast hne, (List.dropLast_append_getLast hne).symm⟩
  rw [List.map_append, List.range_succ] at hpos
  obtain ⟨t, ht⟩ := hpos
  rw [← List.append_assoc] at ht
  obtain ⟨hpre, hk⟩ := List.append_inj' ht rfl
  rw [List.map_singleton, List.singleton_inj] at hk
  have hbefore : ∀ q ∈ pre, q.1 < L.full.length := by
    intro q hq
    have hmem : q.1 ∈ List.range k := by
      rw [← hpre]
      exact List.mem_append_right _ (List.mem_map_of_mem hq)
    rw [List.mem_range] at hmem
    omega
  have hflat : (pre.flatMap fun q => (L'.bytesWith E o' q.1).drop q.2) =
      pre.flatMap fun q => (L.bytesWith E o q.1).drop q.2 :=
    List.flatMap_congr fun q hq => by rw [hsame q.1 (hbefore q hq)]
  have hp := hwithin p (List.mem_append_right _ (List.mem_singleton_self p))
  simp only [Layout.leftWith, List.flatMap_append, List.flatMap_cons, List.flatMap_nil,
    List.append_nil, hflat, List.append_assoc, List.append_cancel_left_eq, hk]
  rw [hk] at hp
  by_cases heq : k = L.full.length
  · rw [if_pos heq, heq, hact, List.drop_append_of_le_length (by rw [← heq]; exact hp)]
  · rw [if_neg heq, List.append_nil, hsame k (by omega)]

/-- What holds while a snapshot of `L₀` with orphans `o₀` is drained: the log
stands for `L` with orphans `o`, and bytes read and bytes left make up the
image of its stores up to the last one at the time of the snapshot. Bytes may
have been appended since, and read afterwards. -/
structure Drained (E : Env) (c : Config) (L₀ : Layout) (o₀ : Bytes) (appended late : Bool)
    (x : Draining) (L : Layout) (o : Bytes) : Prop where
  rep : x.state.1.RepWith E c x.state.2 L o
  last : L₀.full.length ≤ L.full.length
  positions : x.reader.map Prod.fst <:+ List.range (L₀.full.length + 1)
  within : ∀ p ∈ x.reader, p.2 ≤ (L.bytesWith E o p.1).length
  done : x.done = x.reader.isEmpty
  fresh : appended = false → L = L₀ ∧ o = o₀ ∧ late = false
  grown : appended = true → x.done = false →
    (L₀.image E o₀ L₀.full.length).length < (L.image E o L₀.full.length).length
  left : x.done = false → x.out ++ L.leftWith E o x.reader = L.image E o L₀.full.length
  total : x.done = true →
    (late = false ∧ x.out = L₀.image E o₀ L₀.full.length) ∨
      (late = true ∧ (L₀.image E o₀ L₀.full.length).length < x.out.length)

theorem Drained.init {s : LogState} {L₀ : Layout} {o₀ : Bytes}
    (h : s.1.RepWith E c s.2 L₀ o₀) : Drained E c L₀ o₀ false false (snapshot s) L₀ o₀ := by
  have hreader : s.1.reader = (List.range (L₀.full.length + 1)).map (·, 0) := by
    rw [Log.reader, h.length_segments]
  refine ⟨h, Nat.le_refl _, ?_, ?_, ?_, fun _ => ⟨rfl, rfl, rfl⟩, by simp, fun _ => ?_,
    by simp [snapshot]⟩
  · simp only [snapshot, Log.reader_positions, h.length_segments, List.suffix_refl]
  · intro p hp
    exact (s.1.reader_offsets p hp).trans_le (Nat.zero_le _)
  · rw [snapshot, hreader, List.range_succ]
    simp
  · rw [snapshot, hreader]
    rfl

section drained

variable {L₀ L L' : Layout} {o₀ o o' : Bytes} {appended late : Bool} {l l' : Log} {d d' : Dir}
  {rd rd' : Reader} {out bs : Bytes} {n : Nat} {e : Option Err}

/-- The snapshot's reader stays within the segments that there were. -/
theorem Drained.position_le {x : Draining} (h : Drained E c L₀ o₀ appended late x L o)
    {p : Nat × Nat} (hp : p ∈ x.reader) : p.1 ≤ L₀.full.length := by
  have hmem : p.1 ∈ List.range (L₀.full.length + 1) := h.positions.subset (List.mem_map_of_mem hp)
  rw [List.mem_range] at hmem
  omega

theorem Drained.valid {x : Draining} (h : Drained E c L₀ o₀ appended late x L o) :
    Reader.Valid x.reader x.state.1 := by
  intro p hp
  have hle := h.position_le hp
  have hlast := h.last
  rw [h.rep.length_segments]
  omega

/-- Bytes have been appended to the active segment. -/
theorem Drained.append {done : Bool} {δ : Bytes}
    (h : Drained E c L₀ o₀ appended late ⟨(l, d), rd, out, done⟩ L o)
    (hrep : l'.RepWith E c d' L' o') (hne : δ ≠ []) (hle : L.full.length ≤ L'.full.length)
    (hsame : ∀ i < L.full.length, L'.bytesWith E o' i = L.bytesWith E o i)
    (hact : L'.bytesWith E o' L.full.length = L.bytesWith E o L.full.length ++ δ) :
    Drained E c L₀ o₀ true late ⟨(l', d'), rd, out, done⟩ L' o' := by
  have hlast := h.last
  have hgrows : ∀ {rd : Reader}, rd ≠ [] → rd.map Prod.fst <:+ List.range (L₀.full.length + 1) →
      (∀ p ∈ rd, p.2 ≤ (L.bytesWith E o p.1).length) →
      L'.leftWith E o' rd =
        L.leftWith E o rd ++ if L₀.full.length = L.full.length then δ else [] :=
    fun hrd hpos hwithin => left_grows hrd hpos hlast hwithin hsame hact
  have himage : L'.image E o' L₀.full.length = L.image E o L₀.full.length ++
      if L₀.full.length = L.full.length then δ else [] := by
    refine hgrows (by simp [List.range_succ]) ?_ ?_
    · rw [List.map_map]
      exact (List.map_id _).symm ▸ List.suffix_refl _
    · intro p hp
      obtain ⟨i, -, rfl⟩ := List.mem_map.mp hp
      exact Nat.zero_le _
  refine ⟨hrep, hlast.trans hle, h.positions, ?_, h.done, nofun, ?_, ?_, h.total⟩
  · intro p hp
    have hle := h.position_le hp
    refine (h.within p hp).trans ?_
    rcases Nat.lt_or_ge p.1 L.full.length with hlt | hge
    · rw [hsame p.1 hlt]
    · rw [show p.1 = L.full.length by omega, hact, List.length_append]
      omega
  · intro _ hdone
    rw [himage, List.length_append]
    cases happ : appended with
    | false =>
        -- the first bytes go to the last of the snapshot's segments
        obtain ⟨rfl, rfl, -⟩ := h.fresh happ
        have hpos := List.length_pos_iff.mpr hne
        rw [if_pos rfl]
        omega
    | true =>
        have := h.grown happ hdone
        omega
  · intro hdone
    have hrd : rd ≠ [] := by
      rintro rfl
      have := h.done
      simp only at hdone
      rw [hdone] at this
      cases this
    rw [himage, hgrows hrd h.positions h.within, ← List.append_assoc, h.left hdone]

theorem Drained.gives (h : Drained E c L₀ o₀ appended late ⟨(l, d), rd, out, false⟩ L o)
    (hread : rd.read n l d = (.ok (bs, e), rd', l', d')) :
    Reader.Gives (fun l d => l.RepWith E c d L o) n rd l d bs rd' l' d' ∧
      e = if rd'.isEmpty then some .eof else none :=
  Reader.gives_of_read (Log.flushStable_repWith E c L o) h.rep h.valid hread

theorem Drained.read_left (h : Drained E c L₀ o₀ appended late ⟨(l, d), rd, out, false⟩ L o)
    (hread : rd.read n l d = (.ok (bs, e), rd', l', d')) :
    out ++ bs ++ L.leftWith E o rd' = L.image E o L₀.full.length := by
  obtain ⟨hg, -⟩ := h.gives hread
  have hrest : L.leftWith E o rd = bs ++ L.leftWith E o rd' := by
    rw [← Log.RepWith.rest (d := d) h.rep h.valid, ← Log.RepWith.rest hg.keeps hg.valid, hg.rest]
  rw [List.append_assoc, ← hrest]
  exact h.left rfl

/-- The read that returns `io.EOF` is the one that completes the image. -/
theorem Drained.read_last (h : Drained E c L₀ o₀ appended late ⟨(l, d), rd, out, false⟩ L o)
    (hread : rd.read n l d = (.ok (bs, e), rd', l', d')) (hend : rd'.isEmpty = true) :
    out ++ bs = L.image E o L₀.full.length := by
  have hleft := h.read_left hread
  rw [List.isEmpty_iff.mp hend, Layout.leftWith, List.flatMap_nil, List.append_nil] at hleft
  exact hleft

theorem Drained.read (h : Drained E c L₀ o₀ appended late ⟨(l, d), rd, out, false⟩ L o)
    (hread : rd.read n l d = (.ok (bs, e), rd', l', d')) :
    Drained E c L₀ o₀ appended (late || appended) ⟨(l', d'), rd', out ++ bs, rd'.isEmpty⟩ L o := by
  obtain ⟨hg, -⟩ := h.gives hread
  have hrep' : l'.RepWith E c d' L o := hg.keeps
  refine ⟨hrep', h.last, hg.positions.trans h.positions, ?_, rfl, fun happ => ?_,
    fun happ _ => h.grown happ rfl, fun _ => h.read_left hread, fun hdone => ?_⟩
  · intro p hp
    rcases hg.within p hp with hmem | ⟨s, hs, hle⟩
    · exact h.within p hmem
    · exact hle.trans (hrep'.length_file hs)
  · obtain ⟨hL, ho, hlate⟩ := h.fresh happ
    exact ⟨hL, ho, by rw [hlate, happ]; rfl⟩
  · simp only [h.read_last hread hdone]
    cases happ : appended with
    | false =>
        obtain ⟨rfl, rfl, hlate⟩ := h.fresh happ
        exact .inl ⟨by rw [hlate]; rfl, rfl⟩
    | true => exact .inr ⟨Bool.or_true _, h.grown happ rfl⟩

end drained

/-- The invariant along a drain, with what the calls say of it. -/
theorem Drained.run {s : LogState} {L₀ : Layout} {o₀ : Bytes} (h : s.1.RepWith E c s.2 L₀ o₀)
    {cs : List Call} {x : Draining} (htr : Trace (DrainStep E) (snapshot s) cs x)
    (hb : ∀ call ∈ cs, call.Bounded) :
    ∃ late L o, Drained E c L₀ o₀ (cs.any (Call.appends E)) late x L o ∧
      (late = false ↔ NoLateRead E cs) := by
  induction htr with
  | init => exact ⟨false, L₀, o₀, .init h, by simp [NoLateRead]⟩
  | @snoc cs call _ _ _ hstep ih =>
      obtain ⟨late, L, o, hd, hlate⟩ := ih fun call hcall => hb call (List.mem_append_left _ hcall)
      rw [List.any_append, List.any_cons, List.any_nil, Bool.or_false]
      cases hstep with
      | @apply l l' d d' rd out done data res happly =>
          have hbounded := hb (.apply data res) (by simp)
          have happend : ∀ {r : Record} {res' : Result UInt64}, Fsm.logged E data = some r →
              l.append E d (some r) = (res', l', d') →
              (∀ off, res' = .ok off → off.toNat < 2 ^ 64 - 1) →
              ∃ L' o', Drained E c L₀ o₀
                (cs.any (Call.appends E) || Call.appends E (.apply data res)) late
                ⟨(l', d'), rd, out, done⟩ L' o' := by
            intro r res' hlog happ hoff
            obtain ⟨L', o', δ, hrep, hne, hle, hsame, hact, -⟩ := hd.rep.append_bytes happ hoff
            rw [Call.appends, hlog, Option.isSome_some, Bool.or_true]
            exact ⟨L', o', hd.append hrep hne hle hsame hact⟩
          have hwas : NoLateRead E (cs ++ [.apply data res]) ↔ NoLateRead E cs := noLateRead_apply
          rw [hwas]
          rcases Fsm.apply_cases happly with
            ⟨r, off, hlog, happ, rfl⟩ | ⟨r, e, hlog, happ, rfl⟩ | ⟨hlog, rfl, rfl, -⟩
          · obtain ⟨L', o', hd'⟩ := happend hlog happ fun off' heq => by cases heq; exact hbounded
            exact ⟨late, L', o', hd', hlate⟩
          · obtain ⟨L', o', hd'⟩ := happend hlog happ fun off' heq => by cases heq
            exact ⟨late, L', o', hd', hlate⟩
          · rw [Call.appends, hlog, Option.isSome_none, Bool.or_false]
            exact ⟨late, L, o, hd, hlate⟩
      | @read l l' d d' rd rd' out bs n e hread =>
          obtain ⟨-, he⟩ := hd.gives hread
          have hdone : decide (e = some .eof) = rd'.isEmpty := by
            rw [he]
            cases rd' <;> rfl
          rw [hdone, Call.appends, Bool.or_false]
          refine ⟨_, L, o, hd.read hread, ?_⟩
          rw [noLateRead_read, Bool.or_eq_false_iff]
          exact ⟨fun h => h.2, fun h => ⟨hlate.mpr (noLateRead_of_any h), h⟩⟩

/-- A log that a restore has closed is never drained. -/
theorem not_done_unmapped {s : LogState} (h : s.1.Unmapped) {cs : List Call} {x : Draining}
    (htr : Trace (DrainStep E) (snapshot s) cs x) : x.done = false := by
  have hinv : x.state.1.Unmapped ∧ x.reader ≠ [] ∧ x.done = false := by
    induction htr with
    | init => exact ⟨h, by simpa [snapshot, Log.reader] using h.nonempty, rfl⟩
    | snoc _ hstep ih =>
        obtain ⟨hl, hrd, hdone⟩ := ih
        cases hstep with
        | @apply l _ d _ _ _ _ data _ happly =>
            have h' := (Fsm.apply_unmapped (E := E) (d := d) hl data).2
            rw [happly] at h'
            exact ⟨h', hrd, hdone⟩
        | @read l _ d _ rd _ _ bs n e hread =>
            obtain ⟨_, _, _, hread₁, h₁, hrd₁, heof⟩ := hl.read_reader (d := d) n hrd
            rw [hread, Prod.mk.injEq, Prod.mk.injEq, Prod.mk.injEq] at hread₁
            obtain ⟨rfl, rfl, rfl, rfl⟩ := hread₁
            refine ⟨h₁, hrd₁, decide_eq_false ?_⟩
            rintro rfl
            exact heof bs rfl
  exact hinv.2.2

/-- **When a snapshot is a point in time.** The drained bytes are the frames
of the records applied before the snapshot exactly if none had been refused
and no read of the drain came after an apply. -/
theorem snapshot_pointInTime_iff (E : Env) (c : Config)
    (hM : c.maxIndexBytes.toNat ≤ 12 * 2 ^ 32) {es : List Event} {s : LogState}
    (hlife : Trace (Step E c) (newLog Directory.empty c).2 es s) (hes : ∀ e ∈ es, e.Bounded)
    {cs : List Call} {x : Draining} (hdrain : Trace (DrainStep E) (snapshot s) cs x)
    (hcs : ∀ call ∈ cs, call.Bounded) (hdone : x.done = true) :
    x.out = frames E c.initialOffset (applied E es) ↔
      (∀ e ∈ es, ¬ e.Refused E) ∧ NoLateRead E cs := by
  rcases stands_run hM hlife hes with ⟨L₀, o₀, h⟩ | hclosed
  · obtain ⟨late, L, o, hd, hlate⟩ := Drained.run h.rep hdrain hcs
    have himage : L₀.image E o₀ L₀.full.length =
        frames E c.initialOffset (applied E es) ++ o₀ := by
      have habs := h.abs
      rw [Layout.abs, AppendOnly.mk.injEq] at habs
      rw [L₀.image_eq, habs.1, habs.2, UInt64.ofNat_toNat]
      rfl
    rw [← h.orphans, ← hlate]
    rcases hd.total hdone with ⟨horder, hout⟩ | ⟨hread, hlt⟩
    · rw [hout, himage, List.append_right_eq_self]
      exact ⟨fun hnil => ⟨hnil, horder⟩, fun h => h.1⟩
    · refine ⟨fun hout => ?_, fun h => absurd (hread.symm.trans h.2) Bool.noConfusion⟩
      rw [hout, himage, List.length_append] at hlt
      omega
  · rw [not_done_unmapped hclosed hdrain] at hdone
    cases hdone

section executable

variable {s : LogState}

theorem Step.apply_of (data : Bytes) (res : Fsm.Response)
    (h : (Fsm.apply E s.1 s.2 data).1 = .ok res) :
    Step E c s (.apply data res) (Fsm.apply E s.1 s.2 data).2 :=
  .apply (Prod.ext h rfl)

theorem DrainStep.apply_of {rd : Reader} {out : Bytes} {done : Bool} (data : Bytes)
    (res : Fsm.Response) (h : (Fsm.apply E s.1 s.2 data).1 = .ok res) :
    DrainStep E ⟨s, rd, out, done⟩ (.apply data res)
      ⟨(Fsm.apply E s.1 s.2 data).2, rd, out, done⟩ :=
  .apply (Prod.ext h rfl)

theorem DrainStep.read_of {rd : Reader} {out : Bytes} (n : Nat) (bs : Bytes) (e : Option Err)
    (h : (rd.read n s.1 s.2).1 = .ok (bs, e)) :
    DrainStep E ⟨s, rd, out, false⟩ (.read n) ⟨(rd.read n s.1 s.2).2.2, (rd.read n s.1 s.2).2.1,
      out ++ bs, decide (e = some .eof)⟩ :=
  .read (Prod.ext h rfl)

end executable

/-- A drain that is over before the next record is applied. -/
theorem trace_drained_first : ∃ s x,
    Trace (Step goEnv ⟨64, 24, 0⟩) (newLog Directory.empty ⟨64, 24, 0⟩).2
      [.apply (Fsm.appendCommand goEnv ⟨[7], 0, 0, 0⟩) (.produced 0), .restore [0, 0]] s ∧
    Trace (DrainStep goEnv) (snapshot s)
      [.read 4096, .apply (Fsm.appendCommand goEnv ⟨[8], 0, 0, 0⟩) (.produced 1)] x ∧
    x.done = true :=
  ⟨_, _, (Trace.init.snoc (.apply_of _ _ (by decide +kernel))).snoc (.restore rfl),
    (Trace.init.snoc (.read_of 4096 (frame [10, 1, 7]) (some .eof) (by decide +kernel))).snoc
      (.apply_of _ _ (by decide +kernel)), rfl⟩

theorem snapshot_pointInTime_drained_first : ∃ s x,
    Trace (Step goEnv ⟨64, 24, 0⟩) (newLog Directory.empty ⟨64, 24, 0⟩).2
      [.apply (Fsm.appendCommand goEnv ⟨[7], 0, 0, 0⟩) (.produced 0), .restore [0, 0]] s ∧
    Trace (DrainStep goEnv) (snapshot s)
      [.read 4096, .apply (Fsm.appendCommand goEnv ⟨[8], 0, 0, 0⟩) (.produced 1)] x ∧
    x.done = true ∧ x.out = frames goEnv 0 [⟨[7], 0, 0, 0⟩] := by
  obtain ⟨s, x, hlife, hdrain, hdone⟩ := trace_drained_first
  refine ⟨s, x, hlife, hdrain, hdone, ?_⟩
  have happlied : applied goEnv
      [.apply (Fsm.appendCommand goEnv ⟨[7], 0, 0, 0⟩) (.produced 0), .restore [0, 0]] =
        [⟨[7], 0, 0, 0⟩] := by decide +kernel
  rw [← happlied]
  refine (snapshot_pointInTime_iff goEnv ⟨64, 24, 0⟩ (by decide) hlife ?_ hdrain ?_ hdone).mpr
    ⟨?_, noLateRead_apply.mpr (List.pairwise_singleton _ _)⟩
  · simp [Event.Bounded]
  · simp [Call.Bounded]
  · simp [Event.Refused]

/-- A record applied between the snapshot and its first read is in the image. -/
theorem snapshot_holds_later_record :
    let s₀ := (newLog Directory.empty ⟨64, 24, 0⟩).2
    let s₁ := (Fsm.apply goEnv s₀.1 s₀.2 (Fsm.appendCommand goEnv ⟨[7], 0, 0, 0⟩)).2
    let s₂ := (Fsm.apply goEnv s₁.1 s₁.2 (Fsm.appendCommand goEnv ⟨[8], 0, 0, 0⟩)).2
    (Fsm.apply goEnv s₀.1 s₀.2 (Fsm.appendCommand goEnv ⟨[7], 0, 0, 0⟩)).1 = .ok (.produced 0) ∧
      (Fsm.apply goEnv s₁.1 s₁.2 (Fsm.appendCommand goEnv ⟨[8], 0, 0, 0⟩)).1 =
        .ok (.produced 1) ∧
      ((snapshot s₁).reader.read 4096 s₂.1 s₂.2).1 =
        .ok (frames goEnv 0 [⟨[7], 0, 0, 0⟩, ⟨[8], 0, 0, 0⟩], some .eof) := by
  decide +kernel

end PointInTime

end DistributedLog
