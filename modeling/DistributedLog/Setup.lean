import Mathlib.Data.List.Dedup
import DistributedLog.Sound

/-!
# What setup opens

`Log.setup` sorts the base offsets of the file names and skips every second
one, taking it for the other file of the segment just opened. `evens` is what
is left of a list that way. Of a sorted list in which each value stands once
or twice it is the distinct values exactly when at most one stands once
(`evens_spread`): the first single value shifts the pairs behind it, which
does no harm, and the second one is skipped.

`setup_opens_iff` is that for the files of a directory.
-/

namespace DistributedLog

/-! ## Every second element -/

section evens

variable {α : Type}

/-- The elements at even positions. -/
def evens : List α → List α
  | [] => []
  | [a] => [a]
  | a :: _ :: as => a :: evens as

theorem evens_cons (a : α) : ∀ l : List α, evens (a :: l) = a :: evens l.tail
  | [] => rfl
  | _ :: _ => rfl

theorem evens_ne_nil {l : List α} (h : l ≠ []) : evens l ≠ [] := by
  cases l with
  | nil => exact absurd rfl h
  | cons a l =>
      rw [evens_cons]
      exact List.cons_ne_nil _ _

theorem mem_of_mem_evens {a : α} : ∀ {l : List α}, a ∈ evens l → a ∈ l
  | [], h => h
  | [_], h => h
  | b :: c :: l, h => by
      rcases List.mem_cons.mp h with rfl | h
      · exact List.mem_cons_self
      · exact List.mem_cons_of_mem _ (List.mem_cons_of_mem _ (mem_of_mem_evens h))

/-- Each value as often as `m` says. -/
def spread (m : α → Nat) (bs : List α) : List α := bs.flatMap fun b => List.replicate (m b) b

variable {m : α → Nat} {bs : List α}

theorem spread_cons_one {b : α} (h : m b = 1) : spread m (b :: bs) = b :: spread m bs := by
  rw [spread, List.flatMap_cons, h]
  rfl

theorem spread_cons_two {b : α} (h : m b = 2) :
    spread m (b :: bs) = b :: b :: spread m bs := by
  rw [spread, List.flatMap_cons, h]
  rfl

theorem mem_of_mem_spread {b : α} (h : b ∈ spread m bs) : b ∈ bs := by
  obtain ⟨a, ha, hb⟩ := List.mem_flatMap.mp h
  rw [List.eq_of_mem_replicate hb]
  exact ha

/-- Shifted by one: every value has to stand twice. -/
theorem evens_tail_spread (hm : ∀ b ∈ bs, m b = 1 ∨ m b = 2) (hnd : bs.Nodup) :
    evens (spread m bs).tail = bs ↔ ∀ b ∈ bs, m b = 2 := by
  induction bs with
  | nil => simp [spread, evens]
  | cons b bs ih =>
      obtain ⟨hb, hnd'⟩ := List.nodup_cons.mp hnd
      rw [List.forall_mem_cons]
      rcases hm b List.mem_cons_self with h1 | h2
      · rw [spread_cons_one h1, List.tail_cons]
        refine iff_of_false (fun heq => ?_) (fun h => by omega)
        have hmem : b ∈ evens (spread m bs) := by rw [heq]; exact List.mem_cons_self
        exact hb (mem_of_mem_spread (mem_of_mem_evens hmem))
      · rw [spread_cons_two h2, List.tail_cons, evens_cons, List.cons.injEq,
          ih (fun b hb => hm b (List.mem_cons_of_mem _ hb)) hnd']
        exact ⟨fun h => ⟨h2, h.2⟩, fun h => ⟨rfl, h.2⟩⟩

theorem evens_spread (hm : ∀ b ∈ bs, m b = 1 ∨ m b = 2) (hnd : bs.Nodup) :
    evens (spread m bs) = bs ↔ ∀ a ∈ bs, ∀ b ∈ bs, m a = 1 → m b = 1 → a = b := by
  induction bs with
  | nil => simp [spread, evens]
  | cons b bs ih =>
      obtain ⟨hb, hnd'⟩ := List.nodup_cons.mp hnd
      have hm' : ∀ b ∈ bs, m b = 1 ∨ m b = 2 := fun b hb => hm b (List.mem_cons_of_mem _ hb)
      rcases hm b List.mem_cons_self with h1 | h2
      · -- the first value that stands once: the rest is read shifted
        rw [spread_cons_one h1, evens_cons, List.cons.injEq, evens_tail_spread hm' hnd']
        constructor
        · rintro ⟨-, htwo⟩ x hx y hy hmx hmy
          have hone : ∀ z ∈ b :: bs, m z = 1 → z = b := by
            intro z hz hmz
            rcases List.mem_cons.mp hz with rfl | hz
            · rfl
            · have := htwo z hz
              omega
          rw [hone x hx hmx, hone y hy hmy]
        · intro h
          refine ⟨rfl, fun z hz => (hm' z hz).resolve_left fun hmz => ?_⟩
          have := h b List.mem_cons_self z (List.mem_cons_of_mem _ hz) h1 hmz
          exact hb (this ▸ hz)
      · rw [spread_cons_two h2, evens, List.cons.injEq, ih hm' hnd']
        constructor
        · rintro ⟨-, h⟩ x hx y hy hmx hmy
          have hin : ∀ z ∈ b :: bs, m z = 1 → z ∈ bs := by
            intro z hz hmz
            rcases List.mem_cons.mp hz with rfl | hz
            · omega
            · exact hz
          exact h x (hin x hx hmx) y (hin y hy hmy) hmx hmy
        · intro h
          exact ⟨rfl, fun x hx y hy => h x (List.mem_cons_of_mem _ hx) y
            (List.mem_cons_of_mem _ hy)⟩

end evens

/-! ## The base offsets of a directory -/

variable {d d' : Dir} {c : Config}

/-- One of the two files of the segment is there. -/
def Present (d : Dir) (b : UInt64) : Prop := storeName b ∈ d.names ∨ indexName b ∈ d.names

theorem present_of_mem {n : Name} {b : UInt64} (hb : n ∈ segmentFiles b) (hn : n ∈ d.names) :
    Present d b := by
  rcases List.mem_pair.mp hb with rfl | rfl
  · exact .inl hn
  · exact .inr hn

/-- One is there and the other is not. -/
def Unpaired (d : Dir) (b : UInt64) : Prop :=
  Present d b ∧ ¬ (storeName b ∈ d.names ∧ indexName b ∈ d.names)

/-- The files of the segment that are there. -/
def filesOf (d : Dir) (b : UInt64) : List Name := (segmentFiles b).filter (· ∈ d.names)

/-- The distinct base offsets, in increasing order. -/
def basesOf (d : Dir) : List UInt64 := (d.names.map baseOfName).dedup.insertionSort (· ≤ ·)

theorem pairwise_basesOf (d : Dir) : (basesOf d).Pairwise (· < ·) := by
  have hle : (basesOf d).Pairwise (· ≤ ·) := List.pairwise_insertionSort _ _
  have hnd : (basesOf d).Nodup :=
    (List.perm_insertionSort _ _).nodup_iff.mpr (List.nodup_dedup _)
  exact (hle.and hnd).imp fun {a b} h => UInt64.lt_of_le_of_ne h.1 h.2

theorem mem_basesOf (hfiles : ∀ n ∈ d.names, ∃ b, n ∈ segmentFiles b) {b : UInt64} :
    b ∈ basesOf d ↔ Present d b := by
  rw [basesOf, List.mem_insertionSort, List.mem_dedup, List.mem_map]
  constructor
  · rintro ⟨n, hn, rfl⟩
    obtain ⟨b, hb⟩ := hfiles n hn
    rw [segmentFiles_base hb]
    exact present_of_mem hb hn
  · rintro (hn | hn)
    · exact ⟨_, hn, baseOfName_storeName b⟩
    · exact ⟨_, hn, baseOfName_indexName b⟩

theorem mem_filesOf {b : UInt64} {n : Name} :
    n ∈ filesOf d b ↔ n ∈ segmentFiles b ∧ n ∈ d.names := by
  rw [filesOf, List.mem_filter, decide_eq_true_eq]

theorem length_filesOf (d : Dir) (b : UInt64) : (filesOf d b).length =
    (if storeName b ∈ d.names then 1 else 0) + (if indexName b ∈ d.names then 1 else 0) := by
  by_cases hs : storeName b ∈ d.names <;> by_cases hi : indexName b ∈ d.names <;>
    simp [filesOf, segmentFiles, hs, hi]

theorem length_filesOf_cases {b : UInt64} (h : Present d b) :
    (filesOf d b).length = 1 ∨ (filesOf d b).length = 2 := by
  rw [length_filesOf]
  rcases h with h | h
  · rw [if_pos h]
    split <;> omega
  · rw [if_pos h]
    split <;> omega

theorem length_filesOf_eq_one_iff {b : UInt64} (h : Present d b) :
    (filesOf d b).length = 1 ↔ Unpaired d b := by
  rw [length_filesOf, Unpaired]
  rcases h with h | h
  · rw [if_pos h]
    simp [h, Present]
  · rw [if_pos h]
    simp [h, Present]

/-- The listing, base offset by base offset. -/
theorem names_perm (hfiles : ∀ n ∈ d.names, ∃ b, n ∈ segmentFiles b) :
    d.names.Perm ((basesOf d).flatMap (filesOf d)) := by
  have hnd : (basesOf d).Nodup := (pairwise_basesOf d).imp UInt64.ne_of_lt
  refine (List.perm_ext_iff_of_nodup (AList.keys_nodup _) ?_).mpr fun n => ?_
  · refine List.nodup_flatMap.mpr ⟨fun b _ => ?_, hnd.imp fun {a b} hab n hna hnb => ?_⟩
    · refine List.Nodup.filter _ (List.nodup_cons.mpr ⟨?_, List.nodup_singleton _⟩)
      rw [List.mem_singleton]
      exact storeName_ne_indexName b b
    · exact segmentFiles_disjoint hab n (mem_filesOf.mp hna).1 (mem_filesOf.mp hnb).1
  · rw [List.mem_flatMap]
    constructor
    · intro hn
      obtain ⟨b, hb⟩ := hfiles n hn
      exact ⟨b, (mem_basesOf hfiles).mpr (present_of_mem hb hn), mem_filesOf.mpr ⟨hb, hn⟩⟩
    · rintro ⟨b, -, hn⟩
      exact (mem_filesOf.mp hn).2

theorem sorted_names (hfiles : ∀ n ∈ d.names, ∃ b, n ∈ segmentFiles b) :
    (d.names.map baseOfName).insertionSort (· ≤ ·) =
      spread (fun b => (filesOf d b).length) (basesOf d) := by
  have hmap : ((basesOf d).flatMap (filesOf d)).map baseOfName =
      spread (fun b => (filesOf d b).length) (basesOf d) := by
    rw [List.map_flatMap, spread]
    refine List.flatMap_congr fun b _ => ?_
    refine List.eq_replicate_iff.mpr ⟨List.length_map _, fun a ha => ?_⟩
    obtain ⟨n, hn, rfl⟩ := List.mem_map.mp ha
    exact segmentFiles_base (mem_filesOf.mp hn).1
  have hsorted : (spread (fun b => (filesOf d b).length) (basesOf d)).Pairwise (· ≤ ·) := by
    rw [spread, List.pairwise_flatMap]
    refine ⟨fun b _ => ?_, (pairwise_basesOf d).imp fun {a b} hlt x hx y hy => ?_⟩
    · exact List.pairwise_replicate.mpr (.inr (UInt64.le_refl b))
    · rw [List.eq_of_mem_replicate hx, List.eq_of_mem_replicate hy]
      exact UInt64.le_of_lt hlt
  have hperm : ((d.names.map baseOfName).insertionSort (· ≤ ·)).Perm
      (spread (fun b => (filesOf d b).length) (basesOf d)) := by
    rw [← hmap]
    exact (List.perm_insertionSort _ _).trans ((names_perm hfiles).map _)
  exact hperm.eq_of_pairwise' (List.pairwise_insertionSort _ _) hsorted

/-! ## What the loop opens -/

/-- The segment is one that `newSegment` has just opened on a base offset. -/
def OpenedAt (c : Config) (s : Segment) (b : UInt64) : Prop :=
  ∃ d d', newSegment d b c = (.ok s, d')

theorem OpenedAt.base {s : Segment} {b : UInt64} (h : OpenedAt c s b) : s.baseOffset = b := by
  obtain ⟨d, d', h⟩ := h
  exact (newSegment_cases h).2.1

namespace Log

variable {l l' : Log}

theorem newSegment_opened {b : UInt64} (h : l.newSegment d b = (.ok (), l', d')) :
    ∃ s, OpenedAt l.config s b ∧
      l' = { l with segments := l.segments ++ [s], detached := none } := by
  unfold Log.newSegment at h
  split at h
  · cases h
  · next s d₁ hnew =>
    cases h
    exact ⟨s, ⟨_, _, hnew⟩, rfl⟩

/-- The loop opens the base offsets at even positions. -/
theorem openAll_opened : ∀ (offs : List UInt64) {l : Log} {d : Dir},
    l.openAll d offs = (.ok (), l', d') →
    ∃ ss, List.Forall₂ (OpenedAt l.config) ss (evens offs) ∧
      l'.segments = l.segments ++ ss ∧ (l.detached = none → l'.detached = none) ∧
      l'.config = l.config
  | [], l, d, h => by
      cases h
      exact ⟨[], .nil, (List.append_nil _).symm, id, rfl⟩
  | [off], l, d, h => by
      obtain ⟨s, hs, rfl⟩ := newSegment_opened h
      exact ⟨[s], .cons hs .nil, rfl, fun _ => rfl, rfl⟩
  | off :: _ :: offs, l, d, h => by
      rw [Log.openAll] at h
      split at h
      · cases h
      · next l₁ d₁ hnew =>
        obtain ⟨s, hs, rfl⟩ := newSegment_opened hnew
        obtain ⟨ss, hss, hseg, hdet, hconf⟩ := openAll_opened offs h
        refine ⟨s :: ss, .cons hs hss, ?_, fun _ => hdet rfl, hconf⟩
        rw [hseg, List.append_assoc]
        rfl

theorem map_base_opened {ss : List Segment} {offs : List UInt64}
    (h : List.Forall₂ (OpenedAt c) ss offs) : ss.map Segment.baseOffset = offs := by
  induction h with
  | nil => rfl
  | cons hs _ ih => rw [List.map_cons, hs.base, ih]

theorem opened_of_mem {ss : List Segment} {offs : List UInt64}
    (h : List.Forall₂ (OpenedAt c) ss offs) :
    ∀ s ∈ ss, OpenedAt c s s.baseOffset ∧ s.baseOffset ∈ offs := by
  induction h with
  | nil =>
      intro s hs
      cases hs
  | cons hs _ ih =>
      intro t ht
      rcases List.mem_cons.mp ht with rfl | ht
      · rw [hs.base]
        exact ⟨hs, List.mem_cons_self⟩
      · exact ⟨(ih t ht).1, List.mem_cons_of_mem _ (ih t ht).2⟩

/-- What the log has after setup: the base offsets found, or the initial one
if there are no files. -/
theorem setup_opened (h : setup ⟨c, [], none⟩ d = (.ok (), l, d')) :
    l.detached = none ∧ List.Forall₂ (OpenedAt c) l.segments
      (if d.names = [] then [c.initialOffset]
      else evens ((d.names.map baseOfName).insertionSort (· ≤ ·))) := by
  unfold setup at h
  split at h
  · cases h
  split at h
  · cases h
  · next l₁ d₁ hopen =>
    obtain ⟨ss, hss, hseg, hdet, hconf⟩ := openAll_opened _ hopen
    rw [List.nil_append] at hseg
    have hempty : l₁.segments = [] ↔ d.names = [] := by
      constructor
      · intro hnil
        by_contra hne
        rw [hseg] at hnil
        rw [hnil] at hss
        refine evens_ne_nil (fun hsort => hne ?_) (List.forall₂_nil_left_iff.mp hss)
        rw [← List.length_eq_zero_iff, List.length_insertionSort, List.length_map,
          List.length_eq_zero_iff] at hsort
        exact hsort
      · intro hnil
        rw [hnil] at hss
        rw [hseg]
        exact List.forall₂_nil_right_iff.mp hss
    by_cases hnil : d.names = []
    · rw [if_pos (List.isEmpty_iff.mpr (hempty.mpr hnil))] at h
      obtain ⟨s, hs, rfl⟩ := newSegment_opened h
      rw [if_pos hnil, hempty.mpr hnil]
      rw [hconf] at hs
      exact ⟨rfl, .cons hs .nil⟩
    · rw [if_neg (mt List.isEmpty_iff.mp (mt hempty.mp hnil))] at h
      cases h
      rw [if_neg hnil, hseg]
      exact ⟨hdet rfl, hss⟩

theorem setup_bases (h : setup ⟨c, [], none⟩ d = (.ok (), l, d')) (hne : d.names ≠ []) :
    l.segments.map Segment.baseOffset =
      evens ((d.names.map baseOfName).insertionSort (· ≤ ·)) := by
  have hss := (setup_opened h).2
  rw [if_neg hne] at hss
  exact map_base_opened hss

/-- Of the files in `d`, every base offset has its segment, the segments stand
in increasing order and the active one is the last. -/
structure OpensAll (d : Dir) (l : Log) : Prop where
  bases : ∀ b, b ∈ l.segments.map Segment.baseOffset ↔ Present d b
  increasing : (l.segments.map Segment.baseOffset).Pairwise (· < ·)
  active : ∃ s ∈ l.segments, l.activeSegment = some s ∧
    ∀ t ∈ l.segments, t.baseOffset ≤ s.baseOffset

/-- The last of increasing base offsets is the greatest. -/
theorem le_getLast {ss : List Segment} {s : Segment} (hlast : ss.getLast? = some s)
    (hinc : (ss.map Segment.baseOffset).Pairwise (· < ·)) :
    ∀ t ∈ ss, t.baseOffset ≤ s.baseOffset := by
  obtain ⟨ss', rfl⟩ := List.getLast?_eq_some_iff.mp hlast
  rw [List.map_append, List.pairwise_append] at hinc
  intro t ht
  rcases List.mem_append.mp ht with ht | ht
  · exact UInt64.le_of_lt (hinc.2.2 _ (List.mem_map_of_mem ht) _ (List.mem_singleton_self _))
  · rw [List.mem_singleton.mp ht]
    exact UInt64.le_refl _

theorem opensAll_iff (h : setup ⟨c, [], none⟩ d = (.ok (), l, d'))
    (hfiles : ∀ n ∈ d.names, ∃ b, n ∈ segmentFiles b) :
    OpensAll d l ↔ d.names ≠ [] ∧ l.segments.map Segment.baseOffset = basesOf d := by
  obtain ⟨hdet, hopened⟩ := setup_opened h
  constructor
  · intro ho
    refine ⟨fun hnil => ?_, ?_⟩
    · rw [if_pos hnil] at hopened
      have hin := (ho.bases c.initialOffset).mp
        (by rw [map_base_opened hopened]; exact List.mem_singleton_self _)
      rw [Present, hnil] at hin
      simp at hin
    · have hperm : (l.segments.map Segment.baseOffset).Perm (basesOf d) :=
        (List.perm_ext_iff_of_nodup (ho.increasing.imp UInt64.ne_of_lt)
          ((pairwise_basesOf d).imp UInt64.ne_of_lt)).mpr fun b =>
            (ho.bases b).trans (mem_basesOf hfiles).symm
      exact hperm.eq_of_pairwise' (r := (· ≤ ·)) (ho.increasing.imp UInt64.le_of_lt)
        ((pairwise_basesOf d).imp UInt64.le_of_lt)
  · rintro ⟨hne, heq⟩
    have hinc : (l.segments.map Segment.baseOffset).Pairwise (· < ·) :=
      heq ▸ pairwise_basesOf d
    obtain ⟨n, hn⟩ := List.exists_mem_of_ne_nil _ hne
    have hseg : l.segments ≠ [] := by
      intro hnil
      obtain ⟨b, hb⟩ := hfiles n hn
      have hin := (mem_basesOf hfiles).mpr (present_of_mem hb hn)
      rw [← heq, hnil] at hin
      cases hin
    refine ⟨fun b => by rw [heq]; exact mem_basesOf hfiles, hinc, ?_⟩
    obtain ⟨s, hlast⟩ := Option.isSome_iff_exists.mp (List.getLast?_isSome.mpr hseg)
    refine ⟨s, List.mem_of_getLast? hlast, ?_, le_getLast hlast hinc⟩
    rw [activeSegment, hdet, hlast]
    rfl

end Log

/-- **What setup opens**, when every segment can be opened: the files are
there to be found, and at most one of them has lost its partner. -/
theorem setup_opens_iff (hc : c.Mappable) (hd : d.present = true)
    (hlim : Log.Limited c.maxIndexBytes.toNat d)
    (hfiles : ∀ n ∈ d.names, ∃ b, n ∈ segmentFiles b) :
    (∃ l d', Log.setup ⟨c, [], none⟩ d = (.ok (), l, d') ∧ l.OpensAll d) ↔
      d.names ≠ [] ∧ ∀ a b, Unpaired d a → Unpaired d b → a = b := by
  obtain ⟨l, d', hsetup, -⟩ := Log.setup_sound hc hd hlim
  have hl : (∃ l d', Log.setup ⟨c, [], none⟩ d = (.ok (), l, d') ∧ l.OpensAll d) ↔
      l.OpensAll d := by
    constructor
    · rintro ⟨l₁, d₁, hsetup₁, ho⟩
      rw [hsetup, Prod.mk.injEq, Prod.mk.injEq] at hsetup₁
      rw [hsetup₁.2.1]
      exact ho
    · exact fun ho => ⟨l, d', hsetup, ho⟩
  rw [hl, Log.opensAll_iff hsetup hfiles]
  refine and_congr_right fun hne => ?_
  have hcount : ∀ b ∈ basesOf d, (filesOf d b).length = 1 ∨ (filesOf d b).length = 2 :=
    fun b hb => length_filesOf_cases ((mem_basesOf hfiles).mp hb)
  rw [Log.setup_bases hsetup hne, sorted_names hfiles,
    evens_spread hcount ((pairwise_basesOf d).imp UInt64.ne_of_lt)]
  constructor
  · intro h a b ha hb
    exact h a ((mem_basesOf hfiles).mpr ha.1) b ((mem_basesOf hfiles).mpr hb.1)
      ((length_filesOf_eq_one_iff ha.1).mpr ha) ((length_filesOf_eq_one_iff hb.1).mpr hb)
  · intro h a ha b hb ha1 hb1
    exact h a b ((length_filesOf_eq_one_iff ((mem_basesOf hfiles).mp ha)).mp ha1)
      ((length_filesOf_eq_one_iff ((mem_basesOf hfiles).mp hb)).mp hb1)

/-- The store file of a segment that has lost its index file, and a whole
segment. -/
def halfRemoved : Dir :=
  ((Directory.empty.create (storeName 0)).create (storeName 3)).create (indexName 3)

theorem names_halfRemoved : halfRemoved.names = [indexName 3, storeName 3, storeName 0] := by
  decide +kernel

theorem setup_opens_half_removed :
    ∃ l d', Log.setup ⟨⟨64, 24, 0⟩, [], none⟩ halfRemoved = (.ok (), l, d') ∧
      l.OpensAll halfRemoved := by
  have hempty : ∀ n f, halfRemoved.content? n = some f → f = [] := by
    intro n f hf
    have hn : n ∈ halfRemoved.names := Directory.mem_names.mpr (by rw [hf]; rfl)
    have hall : ∀ n ∈ halfRemoved.names, halfRemoved.content? n = some [] := by decide +kernel
    rw [hall n hn, Option.some.injEq] at hf
    exact hf.symm
  have hfiles : ∀ n ∈ halfRemoved.names, ∃ b, n ∈ segmentFiles b := by
    rw [names_halfRemoved]
    simp only [List.forall_mem_cons]
    exact ⟨⟨3, by simp [segmentFiles]⟩, ⟨3, by simp [segmentFiles]⟩, ⟨0, by simp [segmentFiles]⟩,
      fun _ h => absurd h List.not_mem_nil⟩
  have honly : ∀ b, Unpaired halfRemoved b → b = 0 := by
    intro b hb
    have hbases : basesOf halfRemoved = [0, 3] := by decide +kernel
    have hin := (mem_basesOf hfiles).mpr hb.1
    rw [hbases] at hin
    rcases List.mem_pair.mp hin with rfl | rfl
    · rfl
    · exact absurd (by rw [names_halfRemoved]; simp) hb.2
  refine (setup_opens_iff ⟨by decide, by decide⟩ rfl (fun b f hf => ?_) hfiles).mpr
    ⟨by rw [names_halfRemoved]; exact List.cons_ne_nil _ _, fun a b ha hb => ?_⟩
  · rw [hempty _ f hf]
    exact Nat.zero_le _
  · rw [honly a ha, honly b hb]

/-- With a third one whose index file has not been created yet, that one is
not opened. -/
theorem setup_skips_second_unpaired :
    (∀ n ∈ (halfRemoved.create (storeName 6)).names, ∃ b, n ∈ segmentFiles b) ∧
      ∃ l d', Log.setup ⟨⟨64, 24, 0⟩, [], none⟩ (halfRemoved.create (storeName 6)) =
          (.ok (), l, d') ∧
        l.segments.map Segment.baseOffset = [0, 3] ∧
        ¬ l.OpensAll (halfRemoved.create (storeName 6)) := by
  have hnames : (halfRemoved.create (storeName 6)).names =
      [storeName 6, indexName 3, storeName 3, storeName 0] := by decide +kernel
  refine ⟨?_, _, _, Prod.ext (by decide +kernel) rfl, by decide +kernel, fun ho => ?_⟩
  · rw [hnames]
    simp only [List.forall_mem_cons]
    exact ⟨⟨6, by simp [segmentFiles]⟩, ⟨3, by simp [segmentFiles]⟩, ⟨3, by simp [segmentFiles]⟩,
      ⟨0, by simp [segmentFiles]⟩, fun _ h => absurd h List.not_mem_nil⟩
  · have hin := (ho.bases 6).mpr (.inl (by rw [hnames]; exact List.mem_cons_self))
    revert hin
    decide +kernel

end DistributedLog
