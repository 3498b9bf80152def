import DistributedLog.Uses

/-!
# A process that stops without closing its log

What is left of a log then is its directory: the store files with what had
been flushed, the index files with every entry but padded to
`MaxIndexBytes`, because only `index.Close` cuts them back. `newIndex` takes
the length of the file for the size of the entries. So every index is full
when the log is opened again, and no append ever succeeds on it
(`crash_never_recovers`).
-/

namespace DistributedLog

namespace Crash

/-- The records that appends have acknowledged, with their offsets. -/
def acked (us : List Use) : List (UInt64 × Record) :=
  us.filterMap fun u => match u with
    | .append r off => some (off, r)
    | .read _ | .drain | .reopen => none

/-- The frame of a record is in a store file. -/
def Flushed (E : Env) (d : Dir) (p : UInt64 × Record) : Prop :=
  ∃ base before after, d.content? (storeName base) =
    some (before ++ frame (E.marshal { p.2 with offset := p.1 }) ++ after)

/-- `NewLog` on what a crash has left gives a log that returns nothing but
acknowledged records, ends between the last one flushed and the last one
acknowledged, and goes on from there. -/
def Recovers (E : Env) (c : Config) (acks : List (UInt64 × Record)) (d : Dir) : Prop :=
  ∃ l' d' highest, newLog d c = (.ok (), l', d') ∧ l'.highestOffset = .ok highest ∧
    (∀ off r, (l'.read E d' off).1 = .ok r →
      ∃ r₀, (off, r₀) ∈ acks ∧ r = { r₀ with offset := off }) ∧
    (∀ last ∈ acks.getLast?, highest ≤ last.1) ∧
    (∀ p ∈ acks, Flushed E d p → p.1 ≤ highest) ∧
    ∀ r, (l'.append E d' (some r)).1 = .ok (highest + 1)

variable {E : Env} {c : Config}

/-- While the log has not been closed, every index file listed is padded. -/
theorem padded_run (hc : c.withDefaults.Mappable) {s₀ s : LogState}
    (hnew : newLog Directory.empty c = (.ok (), s₀)) {us : List Use}
    (htr : Trace (Uses E c) s₀ us s) (hus : Use.reopen ∉ us) :
    Log.Padded c.withDefaults.maxIndexBytes.toNat s.2 := by
  induction htr with
  | init =>
      obtain ⟨l, d, hnew', -, -, he, -⟩ := newLog_sound (d := Directory.empty) hc rfl
        fun b f hf => by cases hf
      rw [hnew, Prod.mk.injEq] at hnew'
      rw [hnew'.2]
      exact Log.Padded.evolves (fun n hn => by cases hn) he
  | snoc htr huse ih =>
      rw [List.mem_append, not_or, List.mem_singleton] at hus
      obtain ⟨hsound, hne⟩ := Log.Sound.run hc hnew htr
      obtain ⟨-, -, he⟩ := Log.Sound.use hc hsound hne huse
      exact (ih hus.1).evolves (he (Ne.symm hus.2))

/-- **No crash is recovered from.** Whatever the configuration and wherever
the process stops, the log can be opened again, and every append on it
returns `io.EOF`. -/
theorem crash_never_recovers (E : Env) (c : Config) {s₀ s : LogState} {us : List Use}
    (hnew : newLog Directory.empty c = (.ok (), s₀)) (htr : Trace (Uses E c) s₀ us s)
    (hus : Use.reopen ∉ us) :
    (∃ l' d', newLog s.2 c = (.ok (), l', d') ∧
      ∀ r, (l'.append E d' (some r)).1 = .error (.err .eof)) ∧
    ¬ Recovers E c (acked us) s.2 := by
  have hc := Config.mappable_of_newLog hnew
  obtain ⟨hsound, hne⟩ := Log.Sound.run hc hnew htr
  obtain ⟨l', d', hnew', hsound', hne', -, -, hfull⟩ :=
    newLog_sound hc hsound.present hsound.limited
  have hnames : s.2.names ≠ [] := by
    obtain ⟨seg, hseg⟩ := List.exists_mem_of_ne_nil _ hne
    obtain ⟨f, hf⟩ := (hsound.segments seg hseg).stored
    exact List.ne_nil_of_mem (Directory.mem_names.mpr (by rw [hf]; rfl))
  have hstuck : ∀ r, (l'.append E d' (some r)).1 = .error (.err .eof) := by
    intro r
    have hactive : l'.activeSegment = some (l'.segments.getLast hne') := by
      rw [hsound'.activeSegment, List.getLast?_eq_some_getLast hne']
    have hsize := hfull (padded_run hc hnew htr hus) hnames _ (List.getLast_mem hne')
    obtain ⟨st, d'', happ, -⟩ := hsound'.append_orphans hc E r hactive (by omega)
    rw [happ]
  refine ⟨⟨l', d', hnew', hstuck⟩, ?_⟩
  rintro ⟨l₁, d₁, highest, hnew₁, -, -, -, -, happ⟩
  rw [hnew', Prod.mk.injEq, Prod.mk.injEq] at hnew₁
  obtain ⟨-, rfl, rfl⟩ := hnew₁
  have herr := happ ⟨[], 0, 0, 0⟩
  rw [hstuck] at herr
  cases herr

theorem crash_never_recovers_one_record :
    ∃ s, Trace (Uses goEnv ⟨64, 24, 0⟩) (newLog Directory.empty ⟨64, 24, 0⟩).2
        [.append ⟨[7], 0, 0, 0⟩ 0] s ∧
      ¬ Recovers goEnv ⟨64, 24, 0⟩ [(0, ⟨[7], 0, 0, 0⟩)] s.2 := by
  have hnew : (newLog Directory.empty ⟨64, 24, 0⟩).1 = .ok () := by decide +kernel
  have htr : Trace (Uses goEnv ⟨64, 24, 0⟩) (newLog Directory.empty ⟨64, 24, 0⟩).2 _ _ :=
    Trace.init.snoc (.append_of ⟨[7], 0, 0, 0⟩ 0 (by decide +kernel))
  exact ⟨_, htr, (crash_never_recovers goEnv _ (Prod.ext hnew rfl) htr (by decide)).2⟩

/-- One record appended, then a crash: the log that is opened again ends at
that record's offset, as it should, and takes no other. -/
theorem crash_after_one_record :
    let s₀ := (newLog Directory.empty ⟨64, 24, 0⟩).2
    let s₁ := (s₀.1.append goEnv s₀.2 (some ⟨[7], 0, 0, 0⟩)).2
    let s₂ := (newLog s₁.2 ⟨64, 24, 0⟩).2
    (s₀.1.append goEnv s₀.2 (some ⟨[7], 0, 0, 0⟩)).1 = .ok 0 ∧
      (newLog s₁.2 ⟨64, 24, 0⟩).1 = .ok () ∧ s₂.1.highestOffset = .ok 0 ∧
      (s₂.1.append goEnv s₂.2 (some ⟨[8], 0, 0, 0⟩)).1 = .error (.err .eof) := by
  decide +kernel

end Crash

end DistributedLog
