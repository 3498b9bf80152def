import DistributedLog.Sound
import DistributedLog.Trace

/-!
# Using a log

`Uses` is one call on a log, and a run of the calls is a `Trace`. Two things
are said of one call: it keeps the log in working order (`Log.Sound.use`),
and, within the bounds of the layouts, it does to the sequence of records
what it should (`Log.Rep.use`). Runs follow by induction.
-/

namespace DistributedLog

/-- A call on a log. -/
inductive Use where
  | append (r : Record) (off : UInt64)
  | read (off : UInt64)
  | drain
  | reopen
deriving DecidableEq

/-- Appends, drains and reopenings succeed; a read may also return an error. -/
inductive Uses (E : Env) (c : Config) : LogState → Use → LogState → Prop where
  | append {l l' : Log} {d d' : Dir} {r : Record} {off : UInt64} :
      l.append E d (some r) = (.ok off, l', d') → Uses E c (l, d) (.append r off) (l', d')
  | read {l l' : Log} {d d' : Dir} {off : UInt64} {res : Result Record} :
      l.read E d off = (res, l', d') → Uses E c (l, d) (.read off) (l', d')
  | drain {l l' : Log} {d d' : Dir} {out : Bytes} :
      Reader.Drain l.reader l d out l' d' → Uses E c (l, d) .drain (l', d')
  | reopen {l l₁ l' : Log} {d d₁ d' : Dir} :
      l.close d = (.ok (), l₁, d₁) → newLog d₁ c = (.ok (), l', d') →
      Uses E c (l, d) .reopen (l', d')

section executable

variable {E : Env} {c : Config} {s : LogState}

theorem Uses.append_of (r : Record) (off : UInt64)
    (h : (s.1.append E s.2 (some r)).1 = .ok off) :
    Uses E c s (.append r off) (s.1.append E s.2 (some r)).2 :=
  .append (Prod.ext h rfl)

theorem Uses.reopen_of (h : (s.1.close s.2).1 = .ok ())
    (h' : (newLog (s.1.close s.2).2.2 c).1 = .ok ()) :
    Uses E c s .reopen (newLog (s.1.close s.2).2.2 c).2 :=
  .reopen (Prod.ext h rfl) (Prod.ext h' rfl)

end executable

/-! ## One call -/

variable {E : Env} {c : Config} {s s' : LogState} {u : Use}

theorem Log.flushStable_sound (c : Config) :
    Reader.FlushStable fun l d => l.Sound c d ∧ l.segments ≠ [] := by
  refine ⟨fun h => h.1.ready, ?_⟩
  rintro l d d' i seg st ⟨hl, hne⟩ hseg hfl
  obtain ⟨hl', -⟩ := hl.flush hseg hfl
  exact ⟨hl', l.setStore_ne_nil hne i st⟩

/-- A log in working order stays so, and only reopening does more to the
directory than to let it evolve. -/
theorem Log.Sound.use (hc : c.withDefaults.Mappable) (h : s.1.Sound c.withDefaults s.2)
    (hne : s.1.segments ≠ []) (huse : Uses E c s u s') :
    s'.1.Sound c.withDefaults s'.2 ∧ s'.1.segments ≠ [] ∧
      (u ≠ .reopen → Evolves c.withDefaults.maxIndexBytes.toNat s.2 s'.2) := by
  -- reading does no more than flush, and flushing keeps all three
  have hstable : Reader.FlushStable fun l d => l.Sound c.withDefaults d ∧ l.segments ≠ [] ∧
      Evolves c.withDefaults.maxIndexBytes.toNat s.2 d := by
    refine ⟨fun h => h.1.ready, ?_⟩
    rintro l d d' i seg st ⟨hl, hlne, he⟩ hseg hfl
    obtain ⟨hl', he', -⟩ := hl.flush hseg hfl
    exact ⟨hl', l.setStore_ne_nil hlne i st, he.trans he'⟩
  have hstart := And.intro h (And.intro hne (Evolves.refl c.withDefaults.maxIndexBytes.toNat s.2))
  cases huse with
  | append happ =>
      obtain ⟨hsound, hne', he, -⟩ := h.append_ok hc hne happ
      exact ⟨hsound, hne', fun _ => he⟩
  | read hread =>
      obtain ⟨hsound, hne', he⟩ := hstable.read hstart hread
      exact ⟨hsound, hne', fun _ => he⟩
  | drain hdrain =>
      obtain ⟨-, hsound, hne', he⟩ := hdrain.gives hstable hstart (Reader.valid_reader _)
      exact ⟨hsound, hne', fun _ => he⟩
  | reopen hclose hnew =>
      obtain ⟨l₁, d₁, hclose₁, hpres, hlim⟩ := h.close hc
      rw [hclose, Prod.mk.injEq, Prod.mk.injEq] at hclose₁
      obtain ⟨-, rfl, rfl⟩ := hclose₁
      obtain ⟨l₂, d₂, hnew₂, hsound, hne', -⟩ := newLog_sound hc hpres hlim
      rw [hnew, Prod.mk.injEq, Prod.mk.injEq] at hnew₂
      obtain ⟨-, rfl, rfl⟩ := hnew₂
      exact ⟨hsound, hne', fun hre => absurd rfl hre⟩

theorem Log.Sound.run (hc : c.withDefaults.Mappable) {s₀ : LogState}
    (hnew : newLog Directory.empty c = (.ok (), s₀)) {us : List Use}
    (htr : Trace (Uses E c) s₀ us s) : s.1.Sound c.withDefaults s.2 ∧ s.1.segments ≠ [] := by
  induction htr with
  | init =>
      obtain ⟨l, d, hnew', hsound, hne, -⟩ := newLog_sound (d := Directory.empty) hc rfl
        fun b f hf => by cases hf
      rw [hnew, Prod.mk.injEq] at hnew'
      rw [hnew'.2]
      exact ⟨hsound, hne⟩
  | snoc _ huse ih =>
      obtain ⟨hsound, hne, -⟩ := Log.Sound.use hc ih.1 ih.2 huse
      exact ⟨hsound, hne⟩

/-- What a call does to the sequence of records. -/
def Use.apply (a : AppendOnly Record) : Use → AppendOnly Record
  | .append r _ => a.push r
  | .read _ | .drain | .reopen => a

/-- The offset assigned, if any, is not the last one there is. -/
def Use.Bounded : Use → Prop
  | .append _ off => off.toNat < 2 ^ 64 - 1
  | .read _ | .drain | .reopen => True

/-- One call on a represented log. The active index does not get full. -/
theorem Log.Rep.use (hM : c.withDefaults.maxIndexBytes.toNat ≤ 12 * 2 ^ 32) {L : Layout}
    (h : s.1.Rep E c.withDefaults s.2 L) (huse : Uses E c s u s') (hu : u.Bounded) :
    ∃ L', s'.1.Rep E c.withDefaults s'.2 L' ∧ L'.abs = u.apply L.abs ∧
      (12 * L.act.len < c.withDefaults.maxIndexBytes.toNat →
        12 * L'.act.len < c.withDefaults.maxIndexBytes.toNat) := by
  have hstable := Log.flushStable_rep E c.withDefaults L
  cases huse with
  | @append l l' d d' r off happ =>
      have hoff : off.toNat < 2 ^ 64 - 1 := hu
      have hnext : L.next + 1 < 2 ^ 64 := by
        rw [← h.append_off happ]
        omega
      obtain ⟨-, hrep⟩ := h.append_ok happ hnext
      exact ⟨_, hrep, L.abs_grow E c.withDefaults r hnext,
        fun _ => Layout.len_grow_lt h.mappable.pos⟩
  | read hread => exact ⟨L, hstable.read h hread, rfl, id⟩
  | drain hdrain => exact ⟨L, (hdrain.gives hstable h (Reader.valid_reader _)).2, rfl, id⟩
  | reopen hclose hnew =>
      obtain ⟨l₁, d₁, l₂, d₂, hclose', hnew', hrep⟩ := h.reopen rfl hM
      obtain ⟨rfl, rfl⟩ := Prod.mk.inj (reopen_eq hclose hnew hclose' hnew')
      exact ⟨L, hrep, rfl, id⟩

end DistributedLog
