import DistributedLog.Operations
import DistributedLog.Trace

/-!
# The log refines an append-only sequence

Runs of `log.Log` are made of appends, reads, truncations below the highest
offset, and clean reopenings (`LogStep`). Every such run is, event for
event, a run of the append-only sequence (`AppendOnly.Step`), and at its end
everything the log shows is read off that sequence (`Shows`). In particular
reopening is an idle step of the sequence, so it changes nothing that can be
observed.
-/

namespace DistributedLog

inductive LogEvent where
  | append (r : Record) (off : UInt64)
  | read (off : UInt64) (result : Result Record)
  | truncate (lowest : UInt64)
  | reopen

/-- The calls that a run is made of. Appends, truncations and reopenings
have succeeded, offsets stay below 2^64 - 1, and no file has outgrown the
file system. -/
inductive LogStep (E : Env) (c : Config) : LogState → LogEvent → LogState → Prop where
  | append {l l' : Log} {d d' : Dir} {r : Record} {off : UInt64} :
      l.append E d (some r) = (.ok off, l', d') → off.toNat < 2 ^ 64 - 1 → l'.FilesFit d' →
      LogStep E c (l, d) (.append r off) (l', d')
  | read {l l' : Log} {d d' : Dir} {off : UInt64} {res : Result Record} :
      l.read E d off = (res, l', d') → LogStep E c (l, d) (.read off res) (l', d')
  | truncate {l l' : Log} {d d' : Dir} {lowest highest : UInt64} :
      l.highestOffset = .ok highest → lowest < highest →
      l.truncate d lowest = (.ok (), l', d') → LogStep E c (l, d) (.truncate lowest) (l', d')
  | reopen {l l₁ l' : Log} {d d₁ d' : Dir} :
      l.close d = (.ok (), l₁, d₁) → newLog d₁ c = (.ok (), l', d') →
      LogStep E c (l, d) .reopen (l', d')

section executable

variable {E : Env} {c : Config} {s : LogState}

theorem LogStep.append_of (r : Record) (off : UInt64)
    (h : (s.1.append E s.2 (some r)).1 = .ok off) (hoff : off.toNat < 2 ^ 64 - 1)
    (hfit : (s.1.append E s.2 (some r)).2.1.FilesFit (s.1.append E s.2 (some r)).2.2) :
    LogStep E c s (.append r off) (s.1.append E s.2 (some r)).2 :=
  .append (Prod.ext h rfl) hoff hfit

theorem LogStep.truncate_of (lowest highest : UInt64) (hhigh : s.1.highestOffset = .ok highest)
    (hlow : lowest < highest) (h : (s.1.truncate s.2 lowest).1 = .ok ()) :
    LogStep E c s (.truncate lowest) (s.1.truncate s.2 lowest).2 :=
  .truncate hhigh hlow (Prod.ext h rfl)

theorem LogStep.reopen_of (h : (s.1.close s.2).1 = .ok ())
    (h' : (newLog (s.1.close s.2).2.2 c).1 = .ok ()) :
    LogStep E c s .reopen (newLog (s.1.close s.2).2.2 c).2 :=
  .reopen (Prod.ext h rfl) (Prod.ext h' rfl)

end executable

/-- The same events on the append-only sequence. -/
inductive AppendOnly.Step : AppendOnly Record → LogEvent → AppendOnly Record → Prop where
  | append (a : AppendOnly Record) (r : Record) :
      Step a (.append r (UInt64.ofNat a.next)) (a.push r)
  | read (a : AppendOnly Record) (off : UInt64) : Step a (.read off (Log.readOf a off)) a
  | truncate (a : AppendOnly Record) {k : Nat} {lowest : UInt64} : k ≤ a.items.length →
      (∀ off, a.base ≤ off → off < a.base + k → off ≤ lowest.toNat) →
      Step a (.truncate lowest) (a.dropFront k)
  | reopen (a : AppendOnly Record) : Step a .reopen a

/-- And on layouts, where it also matters which segments a call leaves. -/
inductive Layout.Step (E : Env) (c : Config) : Layout → LogEvent → Layout → Prop where
  | append (L : Layout) (r : Record) (h : L.next + 1 < 2 ^ 64) :
      Step E c L (.append r (UInt64.ofNat L.next)) (L.grow E c r h)
  | read (L : Layout) (off : UInt64) : Step E c L (.read off (Log.readOf L.abs off)) L
  | truncate {L L' : Layout} {k : Nat} {lowest : UInt64} : k ≤ L.records.length →
      (k = 0 ∨ L.lowest + k ≤ lowest.toNat + 1) → L'.abs = L.abs.dropFront k →
      (∀ b ∈ L'.full, b ∈ L.full) → L'.act = L.act → Step E c L (.truncate lowest) L'
  | reopen (L : Layout) : Step E c L .reopen L

theorem Layout.Step.abs {E : Env} {c : Config} {L L' : Layout} {e : LogEvent}
    (h : L.Step E c e L') : AppendOnly.Step L.abs e L'.abs := by
  cases h with
  | append r h =>
      rw [abs_grow, ← L.abs_next]
      exact .append L.abs r
  | read off => exact .read L.abs off
  | truncate hk hdrop habs _ _ =>
      rw [habs]
      refine .truncate L.abs hk fun off (hlo : L.lowest ≤ off) (hhi : off < L.lowest + _) => ?_
      omega
  | reopen => exact .reopen L.abs

/-- Everything that the methods of a log show, given the sequence. -/
structure Shows (E : Env) (s : LogState) (a : AppendOnly Record) : Prop where
  bounded : a.next < 2 ^ 64
  lowest : s.1.lowestOffset = .ok (UInt64.ofNat a.base)
  highest : s.1.highestOffset = .ok (UInt64.ofNat (a.next - 1))
  read : ∀ off, (s.1.read E s.2 off).1 = Log.readOf a off
  append : ∀ r off l' d', s.1.append E s.2 (some r) = (.ok off, l', d') →
    off = UInt64.ofNat a.next

/-! ## The simulation -/

/-- The log stands for a layout of the sequence that fits in its files. -/
def Simulates (E : Env) (c : Config) (s : LogState) (a : AppendOnly Record) : Prop :=
  ∃ L : Layout, s.1.Rep E c s.2 L ∧ L.Fits E ∧ L.abs = a

variable {E : Env} {c : Config}

theorem Simulates.shows {s : LogState} {a : AppendOnly Record} (h : Simulates E c s a)
    (hM : c.maxIndexBytes.toNat ≤ 12 * 2 ^ 32) : Shows E s a := by
  obtain ⟨L, hrep, hfit, rfl⟩ := h
  refine ⟨?_, hrep.lowestOffset, ?_, ?_, ?_⟩
  · rw [L.abs_next]
    exact L.bounded
  · rw [L.abs_next]
    exact hrep.highestOffset
  · intro off
    obtain ⟨l', d', hread, -⟩ := hrep.read hM hfit off
    rw [hread]
  · intro r off l' d' happ
    rw [L.abs_next, ← hrep.append_off happ, UInt64.ofNat_toNat]

theorem Simulates.append {l l' : Log} {d d' : Dir} {a : AppendOnly Record} {r : Record}
    {off : UInt64} (h : Simulates E c (l, d) a)
    (happ : l.append E d (some r) = (.ok off, l', d')) (hoff : off.toNat < 2 ^ 64 - 1)
    (hfit : l'.FilesFit d') :
    off = UInt64.ofNat a.next ∧ Simulates E c (l', d') (a.push r) := by
  obtain ⟨L, hrep, -, rfl⟩ := h
  have hnext := hrep.append_off happ
  refine ⟨by rw [L.abs_next, ← hnext, UInt64.ofNat_toNat], ?_⟩
  obtain ⟨L', hrep', habs⟩ := hrep.append_abs happ (by omega)
  exact ⟨L', hrep', hrep'.fits hfit, habs⟩

/-- What a truncation below the highest offset leaves. -/
theorem Log.Rep.truncate_ok {l l' : Log} {d d' : Dir} {L : Layout} {lowest highest : UInt64}
    (h : l.Rep E c d L) (hhigh : l.highestOffset = .ok highest) (hlow : lowest < highest)
    (htr : l.truncate d lowest = (.ok (), l', d')) :
    lowest.toNat + 1 < L.next ∧
      ∀ L' : Layout, L'.blocks = L.blocks.filter (Block.keptBy lowest.toNat) →
        l'.Rep E c d' L' := by
  have hbound : L.next < 2 ^ 64 := L.bounded
  rw [h.highestOffset, Except.ok.injEq] at hhigh
  rw [← hhigh, UInt64.lt_iff_toNat_lt, UInt64.toNat_ofNat', Nat.mod_eq_of_lt (by omega)] at hlow
  refine ⟨by omega, fun L' hblocks => ?_⟩
  obtain ⟨l₁, d₁, htr₁, hrep'⟩ := h.truncate (by omega) hblocks
  rw [htr₁, Prod.mk.injEq, Prod.mk.injEq] at htr
  obtain ⟨-, rfl, rfl⟩ := htr
  exact hrep'

theorem Simulates.truncate {l l' : Log} {d d' : Dir} {a : AppendOnly Record}
    {lowest highest : UInt64} (h : Simulates E c (l, d) a) (hhigh : l.highestOffset = .ok highest)
    (hlow : lowest < highest) (htr : l.truncate d lowest = (.ok (), l', d')) :
    ∃ k, k ≤ a.items.length ∧ (k = 0 ∨ a.base + k ≤ lowest.toNat + 1) ∧
      Simulates E c (l', d') (a.dropFront k) ∧
      (a.items ≠ [] → ∃ s ∈ l'.segments.head?, ∃ off : UInt64,
        s.baseOffset ≤ off ∧ off < s.nextOffset ∧ lowest < off) := by
  obtain ⟨L, hrep, hfit, rfl⟩ := h
  obtain ⟨hlt, hkeeps⟩ := hrep.truncate_ok hhigh hlow htr
  obtain ⟨L', k, hblocks, -, habs, hk, hdrop, hfirst⟩ := L.exists_truncate hlt
  have hrep' := hkeeps L' hblocks
  refine ⟨k, hk, hdrop, ⟨L', hrep', hfit.of_filter hblocks, habs⟩, ?_⟩
  · intro hne
    obtain ⟨b, hb, hlen, hpast⟩ := hfirst hne
    have hhead := hrep'.segments
    cases hbs : L'.blocks with
    | nil => rw [hbs] at hb; cases hb
    | cons b₀ bs =>
        rw [hbs, List.head?_cons, Option.mem_def, Option.some.injEq] at hb
        subst hb
        rw [hbs] at hhead
        obtain ⟨s, ss, hs, -, hseg⟩ := List.forall₂_cons_right_iff.mp hhead
        have hnext := hs.next
        have hstart : s.baseOffset.toNat = b₀.start := by rw [hs.base]; rfl
        have hlast : (s.nextOffset - 1).toNat = b₀.start + b₀.len - 1 := by
          have hone : (1 : UInt64).toNat = 1 := rfl
          rw [UInt64.toNat_sub_of_le _ _ (UInt64.le_iff_toNat_le.mpr (by omega)), hnext, hone]
        refine ⟨s, by simp [hseg], s.nextOffset - 1, ?_, ?_, ?_⟩
        · rw [UInt64.le_iff_toNat_le, hlast]; omega
        · rw [UInt64.lt_iff_toNat_lt, hlast]; omega
        · rw [UInt64.lt_iff_toNat_lt, hlast]; omega

/-- One call of the log is one step of the layout. -/
theorem Log.Rep.step {c₀ : Config} (hc₀ : c₀.withDefaults = c) {s s' : LogState} {L : Layout}
    {e : LogEvent} (h : s.1.Rep E c s.2 L) (h32 : ∀ b ∈ L.blocks, b.len ≤ 2 ^ 32)
    (hfit : L.Fits E) (hstep : LogStep E c₀ s e s') :
    ∃ L', L.Step E c e L' ∧ s'.1.Rep E c s'.2 L' ∧ L'.Fits E := by
  cases hstep with
  | @append l l' d d' r off happ hoff hfit' =>
      have hnext := h.append_off happ
      have hbound : L.next + 1 < 2 ^ 64 := by omega
      obtain ⟨-, hrep⟩ := h.append_ok happ hbound
      obtain rfl : off = UInt64.ofNat L.next := by rw [← hnext, UInt64.ofNat_toNat]
      exact ⟨_, .append L r hbound, hrep, hrep.fits hfit'⟩
  | @read l l' d d' off res hread =>
      obtain ⟨l₁, d₁, hread₁, hrep⟩ := h.read_of_entries h32 hfit off
      rw [hread₁, Prod.mk.injEq, Prod.mk.injEq] at hread
      obtain ⟨rfl, rfl, rfl⟩ := hread
      exact ⟨L, .read L off, hrep, hfit⟩
  | truncate hhigh hlow htr =>
      obtain ⟨hlt, hkeeps⟩ := h.truncate_ok hhigh hlow htr
      obtain ⟨L', k, hblocks, hact, habs, hk, hdrop, -⟩ := L.exists_truncate hlt
      refine ⟨L', .truncate hk hdrop habs (fun b hb => ?_) hact, hkeeps L' hblocks,
        hfit.of_filter hblocks⟩
      have hmem : b ∈ L.blocks := by
        have hb' : b ∈ L'.blocks := List.mem_append_left _ hb
        rw [hblocks] at hb'
        exact List.mem_of_mem_filter hb'
      rcases List.mem_append.mp hmem with hmem | hmem
      · exact hmem
      · have hstart := L'.start_lt_act b hb
        rw [hact, List.mem_singleton.mp hmem] at hstart
        omega
  | reopen hclose hnew =>
      obtain ⟨l₁, d₁, l₂, d₂, hclose', hnew', hrep⟩ := h.reopen_of_entries hc₀ h32
      obtain ⟨rfl, rfl⟩ := Prod.mk.inj (reopen_eq hclose hnew hclose' hnew')
      exact ⟨L, .reopen L, hrep, hfit⟩

/-- And so one step of the sequence. -/
theorem Simulates.step {c₀ : Config} (hc₀ : c₀.withDefaults = c)
    (hM : c.maxIndexBytes.toNat ≤ 12 * 2 ^ 32) {s s' : LogState} {a : AppendOnly Record}
    {e : LogEvent} (h : Simulates E c s a) (hstep : LogStep E c₀ s e s') :
    ∃ a', AppendOnly.Step a e a' ∧ Simulates E c s' a' := by
  obtain ⟨L, hrep, hfit, rfl⟩ := h
  obtain ⟨L', hlayout, hrep', hfit'⟩ := hrep.step hc₀ (hrep.entries_le hM) hfit hstep
  exact ⟨L'.abs, hlayout.abs, L', hrep', hfit', rfl⟩

theorem Simulates.start (E : Env) (c₀ : Config) (hM : c₀.maxIndexBytes.toNat < 2 ^ 63) :
    ∃ l d, newLog Directory.empty c₀ = (.ok (), l, d) ∧
      Simulates E c₀.withDefaults (l, d) ⟨c₀.initialOffset.toNat, []⟩ := by
  obtain ⟨l, d, hnew, hrep⟩ := newLog_empty E c₀ rfl (Config.mappable_withDefaults hM)
  exact ⟨l, d, hnew, _, hrep, Layout.fits_fresh E _, rfl⟩

/-- **Refinement.** Every run from a log opened on an empty directory is a
run of the append-only sequence over the same events, and at its end the log
shows exactly that sequence. A truncation leaves a first segment that holds
an offset past `lowest`, provided that the log holds a record at all. -/
theorem log_refines_appendOnly (E : Env) (c : Config)
    (hM : c.maxIndexBytes.toNat ≤ 12 * 2 ^ 32) :
    ∃ l₀ d₀, newLog Directory.empty c = (.ok (), l₀, d₀) ∧
      ∀ es s, Trace (LogStep E c) (l₀, d₀) es s →
        ∃ a, Trace AppendOnly.Step ⟨c.initialOffset.toNat, []⟩ es a ∧ Shows E s a ∧
          ∀ lowest s', LogStep E c s (.truncate lowest) s' → a.items ≠ [] →
            ∃ seg ∈ s'.1.segments.head?, ∃ off : UInt64,
              seg.baseOffset ≤ off ∧ off < seg.nextOffset ∧ lowest < off := by
  have hM' := Config.withDefaults_le hM
  obtain ⟨l₀, d₀, hnew, hstart⟩ := Simulates.start E c (by omega)
  refine ⟨l₀, d₀, hnew, fun es s htr => ?_⟩
  have hsteps : ∀ s a e s', Simulates E c.withDefaults s a → LogStep E c s e s' →
      ∃ a', AppendOnly.Step a e a' ∧ Simulates E c.withDefaults s' a' :=
    fun _ _ _ _ h hstep => h.step rfl hM' hstep
  obtain ⟨a, hatr, hsim⟩ := htr.simulation hstart hsteps
  refine ⟨a, hatr, hsim.shows hM', ?_⟩
  intro lowest s' hstep hne
  cases hstep with
  | truncate hhigh hlow htr =>
      obtain ⟨k, -, -, -, hfirst⟩ := hsim.truncate hhigh hlow htr
      exact hfirst hne

/-- Two records in two segments, the first of which is truncated away. -/
def twoSegments : List LogEvent :=
  [.append ⟨[7], 0, 1, 0⟩ 5, .append ⟨[8], 0, 1, 0⟩ 6, .truncate 5, .reopen]

theorem trace_twoSegments :
    ∃ s, Trace (LogStep goEnv ⟨64, 12, 5⟩) (newLog Directory.empty ⟨64, 12, 5⟩).2 twoSegments s ∧
      s.1.lowestOffset = .ok 6 := by
  have h₁ : Trace (LogStep goEnv ⟨64, 12, 5⟩) (newLog Directory.empty ⟨64, 12, 5⟩).2 _ _ :=
    Trace.init.snoc (.append_of ⟨[7], 0, 1, 0⟩ 5
      (by decide +kernel) (by decide) (by decide +kernel))
  have h₂ := h₁.snoc (.append_of ⟨[8], 0, 1, 0⟩ 6
    (by decide +kernel) (by decide) (by decide +kernel))
  have h₃ := h₂.snoc (.truncate_of 5 6 (by decide +kernel) (by decide)
    (by decide +kernel))
  have h₄ := h₃.snoc (.reopen_of (by decide +kernel) (by decide +kernel))
  exact ⟨_, h₄, by decide +kernel⟩

theorem log_refines_appendOnly_two_segments :
    ∃ es s a, Trace (LogStep goEnv ⟨64, 12, 5⟩) (newLog Directory.empty ⟨64, 12, 5⟩).2 es s ∧
      es.length = 4 ∧ Trace AppendOnly.Step ⟨5, []⟩ es a ∧ Shows goEnv s a ∧
      s.1.lowestOffset = .ok 6 := by
  obtain ⟨l₀, d₀, hnew, hruns⟩ := log_refines_appendOnly goEnv ⟨64, 12, 5⟩ (by decide)
  have hs₀ : (newLog Directory.empty ⟨64, 12, 5⟩).2 = (l₀, d₀) := by rw [hnew]
  rw [← hs₀] at hruns
  obtain ⟨s, htr, hlow⟩ := trace_twoSegments
  obtain ⟨a, hatr, hshows, -⟩ := hruns _ _ htr
  exact ⟨_, s, a, htr, rfl, hatr, hshows, hlow⟩

/-- On an empty log whose initial offset is 2 the highest offset is 1, so
truncating at 0 is admitted, and the only segment left holds no offset. -/
theorem truncate_empty_log_keeps_no_offset :
    ∃ s s', newLog Directory.empty ⟨64, 24, 2⟩ = (.ok (), s) ∧
      LogStep goEnv ⟨64, 24, 2⟩ s (.truncate 0) s' ∧
      ¬ ∃ seg ∈ s'.1.segments.head?, ∃ off : UInt64,
        seg.baseOffset ≤ off ∧ off < seg.nextOffset ∧ 0 < off := by
  let s := (newLog Directory.empty ⟨64, 24, 2⟩).2
  refine ⟨s, (s.1.truncate s.2 0).2, Prod.ext (by decide +kernel) rfl,
    .truncate (show s.1.highestOffset = .ok 1 by decide +kernel) (by decide)
      (Prod.ext (show (s.1.truncate s.2 0).1 = .ok () by decide +kernel) rfl), ?_⟩
  rintro ⟨seg, hseg, off, hlo, hhi, -⟩
  have hends : (s.1.truncate s.2 0).2.1.segments.head?.map
      (fun seg => (seg.baseOffset, seg.nextOffset)) = some (2, 2) := by decide +kernel
  rw [Option.mem_def.mp hseg, Option.map_some, Option.some.injEq, Prod.mk.injEq] at hends
  rw [hends.1, UInt64.le_iff_toNat_le] at hlo
  rw [hends.2, UInt64.lt_iff_toNat_lt] at hhi
  omega

end DistributedLog
