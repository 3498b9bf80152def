import DistributedLog.Uses

/-!
# A log that can take no more

`Log.Append` rolls over to a new segment once `IsMaxed` says that the active
one has reached a limit; `index.Write` refuses an entry that does not fit
below the limit. When `MaxIndexBytes` is not a multiple of the entry width
the two do not meet: an index can have less than an entry's width left and
still not have reached its limit. Then every append fails.
-/

namespace DistributedLog

variable {E : Env} {c : Config}

/-- Within the bounds of the layouts the active index never gets full. -/
theorem Log.Rep.run_room (hM : c.maxIndexBytes.toNat ≤ 12 * 2 ^ 32) {s₀ s : LogState}
    (hnew : newLog Directory.empty c = (.ok (), s₀)) {us : List Use}
    (htr : Trace (Uses E c) s₀ us s) (hus : ∀ u ∈ us, u.Bounded) :
    ∃ L, s.1.Rep E c.withDefaults s.2 L ∧
      12 * L.act.len < c.withDefaults.maxIndexBytes.toNat := by
  induction htr with
  | init =>
      have hrep := Log.Rep.of_newLog E hnew
      exact ⟨_, hrep, hrep.mappable.pos⟩
  | snoc _ huse ih =>
      obtain ⟨L, hrep, hroom⟩ := ih fun u hu => hus u (List.mem_append_left _ hu)
      obtain ⟨L', hrep', -, hroom'⟩ := hrep.use (Config.withDefaults_le hM) huse
        (hus _ (List.mem_append_right _ (List.mem_singleton_self _)))
      exact ⟨L', hrep', hroom' hroom⟩

/-- **When the log is stuck.** In every state of every run the next append
succeeds exactly if another entry fits in the active index, and otherwise
returns `io.EOF`. If the limit is a whole number of entries, no more than
32-bit numbers can count, and offsets do not run out, an entry always fits. -/
theorem append_succeeds_iff (E : Env) (c : Config) {s₀ s : LogState} {us : List Use}
    (hnew : newLog Directory.empty c = (.ok (), s₀)) (htr : Trace (Uses E c) s₀ us s) :
    (∃ active, s.1.activeSegment = some active ∧ ∀ r,
      ((∃ off s', s.1.append E s.2 (some r) = (.ok off, s')) ↔
        active.index.size.toNat + 12 ≤ c.withDefaults.maxIndexBytes.toNat) ∧
      (c.withDefaults.maxIndexBytes.toNat < active.index.size.toNat + 12 →
        (s.1.append E s.2 (some r)).1 = .error (.err .eof))) ∧
    (12 ∣ c.withDefaults.maxIndexBytes.toNat → c.maxIndexBytes.toNat ≤ 12 * 2 ^ 32 →
      (∀ u ∈ us, u.Bounded) → ∀ r, ∃ off s', s.1.append E s.2 (some r) = (.ok off, s')) := by
  have hc := Config.mappable_of_newLog hnew
  obtain ⟨hsound, hne⟩ := Log.Sound.run hc hnew htr
  have hactive : s.1.activeSegment = some (s.1.segments.getLast hne) := by
    rw [hsound.activeSegment, List.getLast?_eq_some_getLast hne]
  refine ⟨⟨_, hactive, fun r => ⟨?_, fun hfull => ?_⟩⟩, fun hdvd hcount hus r => ?_⟩
  · rw [← hsound.append_ok_iff hc E r hactive]
    exact ⟨fun ⟨off, s', h⟩ => ⟨off, s'.1, s'.2, h⟩, fun ⟨off, l', d', h⟩ => ⟨off, (l', d'), h⟩⟩
  · obtain ⟨st, d', happ, -⟩ := hsound.append_orphans hc E r hactive hfull
    rw [happ]
  · obtain ⟨L, hrep, hroom⟩ := Log.Rep.run_room hcount hnew htr hus
    obtain ⟨ss, seg, -, -, hseg, hact⟩ := hrep.active
    obtain ⟨k, hk⟩ := hdvd
    -- fewer than `k` entries, so there is room for one more
    obtain ⟨off, l', d', happ, -⟩ := hsound.append hc E r hact (by
      rw [hseg.rep.index_size]
      unfold Block.len at hroom
      omega)
    exact ⟨off, (l', d'), happ⟩

/-- A limit of two entries: after one append the next succeeds. -/
theorem append_succeeds_second :
    ∃ s, Trace (Uses goEnv ⟨64, 24, 0⟩) (newLog Directory.empty ⟨64, 24, 0⟩).2
        [.append ⟨[7], 0, 0, 0⟩ 0] s ∧
      ∃ off s', s.1.append goEnv s.2 (some ⟨[8], 0, 0, 0⟩) = (.ok off, s') := by
  have hnew : (newLog Directory.empty ⟨64, 24, 0⟩).1 = .ok () := by decide +kernel
  have htr : Trace (Uses goEnv ⟨64, 24, 0⟩) (newLog Directory.empty ⟨64, 24, 0⟩).2 _ _ :=
    Trace.init.snoc (.append_of ⟨[7], 0, 0, 0⟩ 0 (by decide +kernel))
  refine ⟨_, htr, (append_succeeds_iff goEnv _ (Prod.ext hnew rfl) htr).2 (by decide) (by decide)
    ?_ _⟩
  intro u hu
  rw [List.nil_append, List.mem_singleton] at hu
  subst hu
  exact (by decide : (0 : UInt64).toNat < 2 ^ 64 - 1)

/-- A limit of 13 bytes: the second append fails, and so does the third. -/
theorem append_stuck_after_one :
    let s₀ := (newLog Directory.empty ⟨64, 13, 0⟩).2
    let s₁ := (s₀.1.append goEnv s₀.2 (some ⟨[7], 0, 0, 0⟩)).2
    let s₂ := (s₁.1.append goEnv s₁.2 (some ⟨[8], 0, 0, 0⟩)).2
    (newLog Directory.empty ⟨64, 13, 0⟩).1 = .ok () ∧
      (s₀.1.append goEnv s₀.2 (some ⟨[7], 0, 0, 0⟩)).1 = .ok 0 ∧
      (s₁.1.append goEnv s₁.2 (some ⟨[8], 0, 0, 0⟩)).1 = .error (.err .eof) ∧
      (s₂.1.append goEnv s₂.2 (some ⟨[9], 0, 0, 0⟩)).1 = .error (.err .eof) := by
  decide +kernel

end DistributedLog
