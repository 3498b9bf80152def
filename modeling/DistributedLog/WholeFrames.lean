import DistributedLog.Appends
import DistributedLog.Decoding
import DistributedLog.PointInTime

/-!
# Draining the log while it is appended to

`Log.Reader` and the calls of `Read` up to the one that returns `io.EOF`,
with appends in between. The reader holds the segments that there are when it
is made, and the last of them may still grow: what is drained are the frames
of the records there were and of some of those appended since, the first
ones (`Layout.Extends`), never a part of a frame.

A drain that is left to itself ends (`ends`), whatever the sizes of the
buffers.
-/

namespace DistributedLog

/-! ## Layouts that have grown -/

/-- Nothing but the last block of `L₀` has changed, which `more` records have
been appended to; new blocks may follow. -/
def Layout.Extends (L₀ L : Layout) (more : List Record) : Prop :=
  ∃ post, L.blocks = L₀.full ++ ⟨L₀.act.base, L₀.act.records ++ more⟩ :: post

namespace Layout

variable {E : Env} {c : Config} {L₀ L : Layout} {more : List Record}

theorem extends_refl (L : Layout) : Extends L L [] :=
  ⟨[], by rw [List.append_nil]; rfl⟩

/-- The record goes to the last block. -/
theorem blocks_grow (r : Record) (h : L.next + 1 < 2 ^ 64) :
    ∃ post, (L.grow E c r h).blocks =
      L.full ++ ⟨L.act.base, L.act.records ++ [r]⟩ :: post := by
  unfold grow
  split
  · exact ⟨_, List.append_assoc ..⟩
  · exact ⟨[], rfl⟩

theorem Extends.grow (h : Extends L₀ L more) (r : Record) (hnext : L.next + 1 < 2 ^ 64) :
    ∃ more', Extends L₀ (L.grow E c r hnext) more' := by
  obtain ⟨post, hblocks⟩ := h
  obtain ⟨post', hgrow⟩ := L.blocks_grow (E := E) (c := c) r hnext
  rcases snoc_eq_split hblocks with ⟨hfull, hact⟩ | ⟨mid, hfull⟩
  · refine ⟨more ++ [r], post', ?_⟩
    rw [hgrow, ← hact, hfull, List.append_assoc]
  · refine ⟨more, mid ++ ⟨L.act.base, L.act.records ++ [r]⟩ :: post', ?_⟩
    rw [hgrow, hfull, List.append_assoc, List.cons_append]

theorem Extends.records (h : Extends L₀ L more) : L₀.records ++ more <+: L.records := by
  obtain ⟨post, hblocks⟩ := h
  refine ⟨post.flatMap Block.records, ?_⟩
  rw [Layout.records, Layout.records, hblocks]
  simp [blocks]

/-- The blocks of `L₀`, the last one as it is in `L`. -/
def upTo (L₀ : Layout) (more : List Record)
    (h : L₀.act.start + (L₀.act.records ++ more).length < 2 ^ 64) : Layout where
  lowest := L₀.lowest
  full := L₀.full
  act := ⟨L₀.act.base, L₀.act.records ++ more⟩
  tiles := L₀.tiles
  bounded := h

/-- What is read of the blocks that there were. -/
theorem Extends.image (h : Extends L₀ L more) :
    L.image E [] L₀.full.length = frames E (UInt64.ofNat L₀.lowest) (L₀.records ++ more) := by
  obtain ⟨post, hblocks⟩ := h
  have hbound : L₀.act.start + (L₀.act.records ++ more).length < 2 ^ 64 := by
    have hmem : (⟨L₀.act.base, L₀.act.records ++ more⟩ : Block) ∈ L.blocks := by
      rw [hblocks]
      exact List.mem_append_right _ List.mem_cons_self
    exact Nat.lt_of_le_of_lt (L.mem_blocks_bounds _ hmem).2 L.bounded
  have hbytes : ∀ i ∈ List.range (L₀.full.length + 1),
      L.bytes E i = (L₀.upTo more hbound).bytes E i := by
    intro i hi
    rw [List.mem_range] at hi
    have hup : L.blocks = (L₀.upTo more hbound).blocks ++ post := by
      rw [hblocks, blocks, upTo, List.append_assoc]
      rfl
    rw [bytes, bytes, hup, List.getElem?_append_left (by rw [length_blocks]; exact hi)]
  have hrecords : (L₀.upTo more hbound).records = L₀.records ++ more := by
    simp [Layout.records, blocks, upTo]
  calc L.image E [] L₀.full.length
      = (L₀.upTo more hbound).image E [] L₀.full.length := by
        rw [Layout.image, Layout.image, leftWith, leftWith, List.flatMap_map, List.flatMap_map]
        exact List.flatMap_congr fun i hi => by simp only [bytesWith_nil, hbytes i hi]
    _ = frames E (UInt64.ofNat L₀.lowest) (L₀.records ++ more) := by
        rw [← hrecords, ← List.append_nil (frames _ _ _)]
        exact (L₀.upTo more hbound).image_eq []

end Layout

/-! ## Frames of numbered records -/

/-- The record as it is stored. -/
def stored (e : Record × UInt64) : Record := { e.1 with offset := e.2 }

/-- The frames of the records at their offsets, one after the other. -/
def framesOf (E : Env) (es : List (Record × UInt64)) : Bytes :=
  es.flatMap fun e => frame (E.marshal (stored e))

/-- The records at the offsets from `low` to `k`. -/
def between (low k : UInt64) (es : List (Record × UInt64)) : List (Record × UInt64) :=
  es.filter fun e => decide (low ≤ e.2) && decide (e.2 ≤ k)

section numbered

variable {E : Env}

theorem numbered_append (a : Nat) (xs ys : List Record) :
    numbered a (xs ++ ys) = numbered a xs ++ numbered (a + xs.length) ys := by
  induction ys using List.reverseRecOn with
  | nil => simp [numbered]
  | append_singleton ys y ih =>
      rw [← List.append_assoc, numbered_concat, numbered_concat, ih, List.append_assoc,
        List.length_append, Nat.add_assoc]

theorem frames_eq_framesOf (a : Nat) (rs : List Record) :
    frames E (UInt64.ofNat a) rs = framesOf E (numbered a rs) := by
  induction rs using List.reverseRecOn with
  | nil => rfl
  | append_singleton rs r ih =>
      rw [frames_append, ih, numbered_concat, framesOf, framesOf, List.flatMap_append,
        UInt64.ofNat_add]
      rfl

theorem toNat_mem_numbered {a : Nat} {rs : List Record} {e : Record × UInt64}
    (hfit : a + rs.length ≤ 2 ^ 64) (he : e ∈ numbered a rs) :
    a ≤ e.2.toNat ∧ e.2.toNat < a + rs.length := by
  obtain ⟨i, hi, hoff⟩ := mem_numbered.mp he
  have hlt := (List.getElem?_eq_some_iff.mp hi).1
  rw [hoff, UInt64.toNat_ofNat', Nat.mod_eq_of_lt (by omega)]
  omega

/-- The first records are those up to the offset of the last of them. -/
theorem between_numbered {a : Nat} {xs ys : List Record}
    (hfit : a + (xs ++ ys).length < 2 ^ 64) (hnil : xs = [] → ys = []) :
    between (UInt64.ofNat a) (UInt64.ofNat (a + xs.length - 1)) (numbered a (xs ++ ys)) =
      numbered a xs := by
  rw [List.length_append] at hfit
  have hlow : (UInt64.ofNat a).toNat = a := by
    rw [UInt64.toNat_ofNat', Nat.mod_eq_of_lt (by omega)]
  have hhigh : (UInt64.ofNat (a + xs.length - 1)).toNat = a + xs.length - 1 := by
    rw [UInt64.toNat_ofNat', Nat.mod_eq_of_lt (by omega)]
  have hxs : between (UInt64.ofNat a) (UInt64.ofNat (a + xs.length - 1)) (numbered a xs) =
      numbered a xs := by
    refine List.filter_eq_self.mpr fun e he => ?_
    have hoff := toNat_mem_numbered (by omega) he
    rw [Bool.and_eq_true, decide_eq_true_eq, decide_eq_true_eq, UInt64.le_iff_toNat_le,
      UInt64.le_iff_toNat_le, hlow, hhigh]
    omega
  have hys : between (UInt64.ofNat a) (UInt64.ofNat (a + xs.length - 1))
      (numbered (a + xs.length) ys) = [] := by
    refine List.filter_eq_nil_iff.mpr fun e he => ?_
    have hoff := toNat_mem_numbered (by omega) he
    have hpos : 0 < xs.length := by
      refine List.length_pos_iff.mpr fun h => ?_
      rw [hnil h] at he
      cases he
    rw [Bool.and_eq_true, decide_eq_true_eq, decide_eq_true_eq, UInt64.le_iff_toNat_le,
      UInt64.le_iff_toNat_le, hlow, hhigh]
    omega
  rw [numbered_append, between, List.filter_append]
  exact (congrArg₂ (· ++ ·) hxs hys).trans (List.append_nil _)

end numbered

namespace WholeFrames

open PointInTime (Draining Drained snapshot)

/-! ## The drain -/

inductive Event where
  | append (r : Record) (off : UInt64)
  | read (n : Nat)

/-- Appends that succeed and reads into buffers that are not empty, up to the
read that returns `io.EOF`. -/
inductive Step (E : Env) : Draining → Event → Draining → Prop where
  | append {s s' : LogState} {rd : Reader} {out : Bytes} {r : Record} {off : UInt64} :
      Appends E s (r, off) s' →
      Step E ⟨s, rd, out, false⟩ (.append r off) ⟨s', rd, out, false⟩
  | read {l l' : Log} {d d' : Dir} {rd rd' : Reader} {out bs : Bytes} {n : Nat}
      {e : Option Err} :
      n ≠ 0 → rd.read n l d = (.ok (bs, e), rd', l', d') →
      Step E ⟨(l, d), rd, out, false⟩ (.read n) ⟨(l', d'), rd', out ++ bs, e.isSome⟩

/-- The appends of a drain. -/
def appended (cs : List Event) : List (Record × UInt64) :=
  cs.filterMap fun e => match e with
    | .append r off => some (r, off)
    | .read _ => none

theorem appended_append (cs : List Event) (r : Record) (off : UInt64) :
    appended (cs ++ [.append r off]) = appended cs ++ [(r, off)] :=
  List.filterMap_append

theorem appended_read (cs : List Event) (n : Nat) :
    appended (cs ++ [.read n]) = appended cs := by
  rw [appended, List.filterMap_append]
  exact List.append_nil _

variable {E : Env} {c : Config}

/-- A drain under way, and what has been drained when it is over: the records
appended before and the first of those appended since. -/
structure Following (E : Env) (c : Config) (L₀ : Layout) (es : List (Record × UInt64))
    (cs : List Event) (x : Draining) (L : Layout) : Prop where
  drained : ∃ late, Drained E c L₀ [] (!(appended cs).isEmpty) late x L []
  grown : ∃ more, L₀.Extends L more
  abs : L.abs = ⟨L₀.lowest, (es ++ appended cs).map Prod.fst⟩
  numbered : es ++ appended cs = numbered L₀.lowest ((es ++ appended cs).map Prod.fst)
  out : x.done = true → ∃ more, more <+: (appended cs).map Prod.fst ∧
    (appended cs ≠ [] → more ≠ []) ∧
    x.out = frames E (UInt64.ofNat L₀.lowest) (es.map Prod.fst ++ more)

section steps

variable {L₀ L : Layout} {es : List (Record × UInt64)} {cs : List Event}

theorem Following.init {s : LogState} (hrep : s.1.Rep E c s.2 L₀)
    (habs : L₀.abs = ⟨L₀.lowest, es.map Prod.fst⟩)
    (hnum : es = DistributedLog.numbered L₀.lowest (es.map Prod.fst)) :
    Following E c L₀ es [] (snapshot s) L₀ where
  drained := ⟨false, .init hrep.repWith⟩
  grown := ⟨[], L₀.extends_refl⟩
  abs := by rw [habs]; simp [appended]
  numbered := by simpa [appended] using hnum
  out := fun h => nomatch h

theorem Following.next {x : Draining} (h : Following E c L₀ es cs x L) :
    L₀.lowest + (es ++ appended cs).length = L.next := by
  rw [← L.abs_next, h.abs, AppendOnly.next, List.length_map]

theorem Following.append {s s' : LogState} {rd : Reader} {out : Bytes} {r : Record} {off : UInt64}
    (h : Following E c L₀ es cs ⟨s, rd, out, false⟩ L) (happ : Appends E s (r, off) s')
    (hoff : off.toNat < 2 ^ 64 - 1) :
    ∃ L', Following E c L₀ es (cs ++ [.append r off]) ⟨s', rd, out, false⟩ L' := by
  obtain ⟨late, hd⟩ := h.drained
  obtain ⟨more, hmore⟩ := h.grown
  have hrecord : off = UInt64.ofNat (L₀.lowest + (es ++ appended cs).length) := by
    rw [h.next, ← hd.rep.rep.append_off happ, UInt64.ofNat_toNat]
  obtain ⟨L', o', δ, hrep, hne, hle, hsame, hact, ⟨_, hnext, -, -, rfl, rfl⟩ | ⟨⟨_, herr⟩, -⟩⟩ :=
    hd.rep.append_bytes happ fun off' heq => by cases heq; exact hoff
  swap
  · cases herr
  have hmap : (es ++ appended (cs ++ [.append r off])).map Prod.fst =
      (es ++ appended cs).map Prod.fst ++ [r] := by
    rw [appended_append, ← List.append_assoc]
    exact List.map_append
  refine ⟨L.grow E c r hnext, ?_, hmore.grow r hnext, ?_, ?_, fun hdone => nomatch hdone⟩
  · refine ⟨late, ?_⟩
    have hsome : (!(appended (cs ++ [.append r off])).isEmpty) = true := by
      rw [appended_append]
      simp
    rw [hsome]
    exact hd.append hrep hne hle hsame hact
  · rw [L.abs_grow, h.abs, AppendOnly.push, hmap]
  · rw [hmap, numbered_concat, ← h.numbered, List.length_map, ← hrecord, appended_append,
      List.append_assoc]

theorem Following.read {l l' : Log} {d d' : Dir} {rd rd' : Reader} {out bs : Bytes} {n : Nat}
    {e : Option Err} (h : Following E c L₀ es cs ⟨(l, d), rd, out, false⟩ L)
    (hL₀ : L₀.records = es.map Prod.fst)
    (hread : rd.read n l d = (.ok (bs, e), rd', l', d')) :
    Following E c L₀ es (cs ++ [.read n]) ⟨(l', d'), rd', out ++ bs, e.isSome⟩ L := by
  obtain ⟨more, hmore⟩ := h.grown
  obtain ⟨late, hd⟩ := h.drained
  obtain ⟨-, he⟩ := hd.gives hread
  have hend : e.isSome = rd'.isEmpty := by
    rw [he]
    cases rd' <;> rfl
  rw [hend]
  refine ⟨?_, ⟨more, hmore⟩, ?_, ?_, fun hdone => ?_⟩
  · rw [appended_read]
    exact ⟨_, hd.read hread⟩
  · rw [appended_read, h.abs]
  · rw [appended_read]
    exact h.numbered
  · have himage := hd.read_last hread hdone
    rw [appended_read]
    refine ⟨more, ?_, fun happ => ?_, ?_⟩
    · have hpre := hmore.records
      have hrecords : L.records = es.map Prod.fst ++ (appended cs).map Prod.fst := by
        rw [← List.map_append]
        exact congrArg AppendOnly.items h.abs
      rw [hL₀, hrecords] at hpre
      exact (List.prefix_append_right_inj _).mp hpre
    · rintro rfl
      -- the last block has grown since the first append
      have hlt := hd.grown (by simpa using happ) rfl
      rw [hmore.image, L₀.image_eq, List.append_nil, List.append_nil] at hlt
      exact absurd hlt (Nat.lt_irrefl _)
    · rw [himage, hmore.image, hL₀]

end steps

/-- Step by step, as long as the offsets last. -/
theorem Following.run {L₀ : Layout} {es : List (Record × UInt64)} {s : LogState}
    (hrep : s.1.Rep E c s.2 L₀) (habs : L₀.abs = ⟨L₀.lowest, es.map Prod.fst⟩)
    (hnum : es = DistributedLog.numbered L₀.lowest (es.map Prod.fst)) {cs : List Event}
    {x : Draining} (htr : Trace (Step E) (snapshot s) cs x)
    (hoff : ∀ e ∈ appended cs, e.2.toNat < 2 ^ 64 - 1) :
    ∃ L, Following E c L₀ es cs x L := by
  induction htr with
  | init => exact ⟨L₀, .init hrep habs hnum⟩
  | snoc _ hstep ih =>
      cases hstep with
      | append happ =>
          rw [appended_append] at hoff
          obtain ⟨L, hf⟩ := ih fun e he => hoff e (List.mem_append_left _ he)
          exact hf.append happ (hoff _ (List.mem_append_right _ (List.mem_singleton_self _)))
      | read hn hread =>
          rw [appended_read] at hoff
          obtain ⟨L, hf⟩ := ih hoff
          exact ⟨L, hf.read (congrArg AppendOnly.items habs) hread⟩

section executable

variable {s : LogState} {rd : Reader} {out : Bytes}

theorem Step.append_of (r : Record) (off : UInt64)
    (h : (s.1.append E s.2 (some r)).1 = .ok off) :
    Step E ⟨s, rd, out, false⟩ (.append r off) ⟨(s.1.append E s.2 (some r)).2, rd, out, false⟩ :=
  .append (.of r off h)

theorem Step.read_of (n : Nat) (hn : n ≠ 0) (bs : Bytes) (e : Option Err)
    (h : (rd.read n s.1 s.2).1 = .ok (bs, e)) :
    Step E ⟨s, rd, out, false⟩ (.read n)
      ⟨(rd.read n s.1 s.2).2.2, (rd.read n s.1 s.2).2.1, out ++ bs, e.isSome⟩ :=
  .read hn (Prod.ext h rfl)

end executable

/-! ## A drain ends -/

/-- The reads with buffers of the given sizes. -/
def reads (size : Nat → Nat) (k : Nat) : List Event := (List.range k).map fun i => .read (size i)

/-- Every read takes a byte at least, so it comes to the end. -/
theorem ends {L : Layout} {x : Draining} (hrep : x.state.1.Rep E c x.state.2 L)
    (hvalid : Reader.Valid x.reader x.state.1) (hdone : x.done = false) {size : Nat → Nat}
    (hsize : ∀ i, size i ≠ 0) : ∃ k x', Trace (Step E) x (reads size k) x' ∧ x'.done = true := by
  have hruns : ∀ k, (∃ j x', Trace (Step E) x (reads size j) x' ∧ x'.done = true) ∨
      ∃ x', Trace (Step E) x (reads size k) x' ∧ x'.done = false ∧
        x'.state.1.Rep E c x'.state.2 L ∧ Reader.Valid x'.reader x'.state.1 ∧
        (x'.reader.rest x'.state.1 x'.state.2).length + k ≤
          (x.reader.rest x.state.1 x.state.2).length := by
    intro k
    induction k with
    | zero => exact .inr ⟨x, .init, hdone, hrep, hvalid, Nat.le_refl _⟩
    | succ k ih =>
        rcases ih with hover | ⟨⟨⟨l, d⟩, rd, out, done⟩, htr, rfl, hrep', hvalid', hle⟩
        · exact .inl hover
        · obtain ⟨bs, rd', l', d', hg⟩ :=
            Reader.exists_gives (Log.flushStable_rep E c L) (size k) rd hrep' hvalid'
          have hsucc : reads size (k + 1) = reads size k ++ [.read (size k)] := by
            rw [reads, List.range_succ, List.map_append]
            rfl
          have htr' := htr.snoc (.read (hsize k) hg.read)
          rw [← hsucc] at htr'
          cases rd' with
          | nil => exact .inl ⟨_, _, htr', rfl⟩
          | cons p rs =>
              have hpos := List.length_pos_iff.mpr
                ((hg.progress (hsize k)).resolve_right (List.cons_ne_nil _ _))
              refine .inr ⟨_, htr', rfl, hg.keeps, hg.valid, ?_⟩
              simp only [hg.rest, List.length_append] at hle ⊢
              omega
  rcases hruns ((x.reader.rest x.state.1 x.state.2).length + 1) with hover | ⟨x', -, -, -, -, hle⟩
  · exact hover
  · omega

/-! ## What is drained -/

/-- Frames of records that are not too long for their length prefix decode to
these records and to nothing else. -/
theorem made_framesOf {es : List (Record × UInt64)}
    (hlen : ∀ e ∈ es, (E.marshal (stored e)).length < 2 ^ 64) (rs : List Record) :
    Fsm.Made E Fsm.Piece.IsFrame (framesOf E es) rs ↔ rs = es.map stored := by
  have hmade : Fsm.Made E Fsm.Piece.IsFrame (framesOf E es) (es.map stored) := by
    induction es with
    | nil => exact Fsm.made_nil
    | cons e es ih =>
        have hsize : Fsm.Piece.IsFrame
            ⟨UInt64.ofNat (E.marshal (stored e)).length, E.marshal (stored e)⟩ := by
          rw [Fsm.Piece.IsFrame, UInt64.toNat_ofNat',
            Nat.mod_eq_of_lt (hlen e List.mem_cons_self)]
        exact .cons hsize (E.unmarshal_marshal _)
          (ih fun e he => hlen e (List.mem_cons_of_mem _ he))
  constructor
  · intro h
    exact h.unique UInt64.toNat (fun _ hq => hq) hmade
  · rintro rfl
    exact hmade

/-- The drained bytes are the frames of the records from the lowest offset up
to some `k`, not below the highest offset at the time of `Log.Reader`, in the
order of the offsets, and nothing else can be decoded from them. -/
structure Whole (E : Env) (s : LogState) (es later : List (Record × UInt64)) (out : Bytes)
    (low high k : UInt64) : Prop where
  lowest : s.1.lowestOffset = .ok low
  highest : s.1.highestOffset = .ok high
  le : high ≤ k
  eq : later = [] → k = high
  ordered : (es ++ later).Pairwise fun e e' => e.2 < e'.2
  frames : out = framesOf E (between low k (es ++ later))
  decode : (∀ e ∈ es ++ later, (E.marshal (stored e)).length < 2 ^ 64) → ∀ rs,
    Fsm.Made E Fsm.Piece.IsFrame out rs ↔ rs = (between low k (es ++ later)).map stored

theorem Following.whole {s : LogState} {L₀ L : Layout} {es : List (Record × UInt64)}
    {cs : List Event} {x : Draining} (h : Following E c L₀ es cs x L)
    (hrep : s.1.Rep E c s.2 L₀) (habs : L₀.abs = ⟨L₀.lowest, es.map Prod.fst⟩)
    (hdone : x.done = true) :
    ∃ low high k, Whole E s es (appended cs) x.out low high k := by
  obtain ⟨more, ⟨post, hpost⟩, hne, hout⟩ := h.out hdone
  have hnext₀ : L₀.next = L₀.lowest + es.length := by
    rw [← L₀.abs_next, habs, AppendOnly.next, List.length_map]
  have hrecords : (es ++ appended cs).map Prod.fst = (es.map Prod.fst ++ more) ++ post := by
    rw [List.map_append, List.append_assoc, hpost]
  have hcount : (es.map Prod.fst ++ more).length = es.length + more.length := by
    rw [List.length_append, List.length_map]
  have hfit : L₀.lowest + (es.length + more.length + post.length) < 2 ^ 64 := by
    rw [← hcount, ← List.length_append, ← hrecords, List.length_map, h.next]
    exact L.bounded
  have hbetween : between (UInt64.ofNat L₀.lowest)
      (UInt64.ofNat (L₀.lowest + (es.map Prod.fst ++ more).length - 1)) (es ++ appended cs) =
      DistributedLog.numbered L₀.lowest (es.map Prod.fst ++ more) := by
    rw [h.numbered, hrecords]
    refine between_numbered (by rw [List.length_append, hcount]; exact hfit) fun hnil => ?_
    obtain ⟨-, rfl⟩ := List.append_eq_nil_iff.mp hnil
    have hlater : appended cs = [] := by
      by_contra happ
      exact hne happ rfl
    simpa [hlater] using hpost
  have hframes : x.out = framesOf E (between (UInt64.ofNat L₀.lowest)
      (UInt64.ofNat (L₀.lowest + (es.map Prod.fst ++ more).length - 1)) (es ++ appended cs)) := by
    rw [hout, hbetween, frames_eq_framesOf]
  refine ⟨_, _, _, hrep.lowestOffset, hrep.highestOffset, ?_, fun hlater => ?_, ?_, hframes, ?_⟩
  · rw [hcount, UInt64.le_iff_toNat_le, UInt64.toNat_ofNat', UInt64.toNat_ofNat',
      Nat.mod_eq_of_lt (by omega), Nat.mod_eq_of_lt (by omega), hnext₀]
    omega
  · rw [hlater] at hpost
    obtain ⟨rfl, -⟩ := List.append_eq_nil_iff.mp hpost
    rw [hnext₀, List.append_nil, List.length_map]
  · rw [h.numbered, hrecords]
    exact pairwise_numbered (by rw [List.length_append, hcount]; omega)
  · intro hmarshal rs
    rw [hframes]
    exact made_framesOf (fun e he => hmarshal e (List.mem_of_mem_filter he)) rs

/-- **No frame is torn or skipped.** Whatever the sizes of the buffers and
whenever records are appended in between, as long as no append has got the
offset 2^64 - 1: what is drained are whole frames, those of the records that
there were first. A drain without appends comes to its end. -/
theorem drain_whole_frames (E : Env) (c : Config) {s₀ s : LogState}
    (hnew : newLog Directory.empty c = (.ok (), s₀)) {es : List (Record × UInt64)}
    (htr : Trace (Appends E) s₀ es s) {cs : List Event} {x : Draining}
    (hdrain : Trace (Step E) (snapshot s) cs x)
    (hoff : ∀ e ∈ es ++ appended cs, e.2.toNat < 2 ^ 64 - 1) :
    (x.done = true → ∃ low high k, Whole E s es (appended cs) x.out low high k) ∧
      (x.done = false → ∀ size : Nat → Nat, (∀ i, size i ≠ 0) →
        ∃ k x', Trace (Step E) x (reads size k) x' ∧ x'.done = true) := by
  obtain ⟨L₀, hrep, habs, hnum⟩ :=
    Log.Rep.appends_abs hnew htr fun e he => hoff e (List.mem_append_left _ he)
  have hlow : L₀.lowest = c.initialOffset.toNat := congrArg AppendOnly.base habs
  rw [← hlow] at habs hnum
  obtain ⟨L, hf⟩ := Following.run hrep habs hnum hdrain fun e he =>
    hoff e (List.mem_append_right _ he)
  obtain ⟨late, hd⟩ := hf.drained
  exact ⟨hf.whole hrep habs, fun hdone size hsize => ends hd.rep.rep hd.valid hdone hsize⟩

/-- A record is appended after the first five bytes have been read, and a new
segment follows. -/
theorem drain_whole_frames_rolled :
    ∃ s₀ s x, newLog Directory.empty ⟨64, 24, 0⟩ = (.ok (), s₀) ∧
      Trace (Appends goEnv) s₀ [(⟨[7], 0, 0, 0⟩, 0)] s ∧
      Trace (Step goEnv) (snapshot s) [.read 5, .append ⟨[8], 0, 0, 0⟩ 1, .read 4096] x ∧
      x.done = true ∧ x.state.1.segments.length = 2 ∧
      ∃ low high k, Whole goEnv s [(⟨[7], 0, 0, 0⟩, 0)] [(⟨[8], 0, 0, 0⟩, 1)] x.out low high k := by
  have hnew : newLog Directory.empty ⟨64, 24, 0⟩ =
      (.ok (), (newLog Directory.empty ⟨64, 24, 0⟩).2) := Prod.ext (by decide +kernel) rfl
  have htr : Trace (Appends goEnv) (newLog Directory.empty ⟨64, 24, 0⟩).2 _ _ :=
    Trace.init.snoc (.of ⟨[7], 0, 0, 0⟩ 0 (by decide +kernel))
  have hread : Trace (Step goEnv) (snapshot ((newLog Directory.empty ⟨64, 24, 0⟩).2.1.append goEnv
      (newLog Directory.empty ⟨64, 24, 0⟩).2.2 (some ⟨[7], 0, 0, 0⟩)).2) _ _ :=
    Trace.init.snoc (.read_of 5 (by decide) [0, 0, 0, 0, 0] none (by decide +kernel))
  have hdrain := (hread.snoc (.append_of ⟨[8], 0, 0, 0⟩ 1 (by decide +kernel))).snoc
    (.read_of 4096 (by decide) [0, 0, 3, 10, 1, 7, 0, 0, 0, 0, 0, 0, 0, 5, 10, 1, 8, 16, 1]
      (some .eof) (by decide +kernel))
  refine ⟨_, _, _, hnew, htr, hdrain, rfl, by decide +kernel, ?_⟩
  exact (drain_whole_frames goEnv ⟨64, 24, 0⟩ hnew htr hdrain (by decide)).1 rfl

/-- The offset after 2^64 - 1 is 0. Both frames are drained, and the second
is that of a record below the lowest offset. -/
theorem drain_past_last_offset :
    let s₀ := (newLog Directory.empty ⟨64, 36, 18446744073709551615⟩).2
    let s₁ := (s₀.1.append goEnv s₀.2 (some ⟨[7], 0, 0, 0⟩)).2
    let s₂ := (s₁.1.append goEnv s₁.2 (some ⟨[8], 0, 0, 0⟩)).2
    let es : List (Record × UInt64) :=
      [(⟨[7], 0, 0, 0⟩, 18446744073709551615), (⟨[8], 0, 0, 0⟩, 0)]
    (newLog Directory.empty ⟨64, 36, 18446744073709551615⟩).1 = .ok () ∧
      (s₀.1.append goEnv s₀.2 (some ⟨[7], 0, 0, 0⟩)).1 = .ok 18446744073709551615 ∧
      (s₁.1.append goEnv s₁.2 (some ⟨[8], 0, 0, 0⟩)).1 = .ok 0 ∧
      s₂.1.lowestOffset = .ok 18446744073709551615 ∧ s₂.1.highestOffset = .ok 0 ∧
      (s₂.1.reader.read 4096 s₂.1 s₂.2).1 = .ok (framesOf goEnv es, some .eof) ∧
      ∀ k, framesOf goEnv es ≠ framesOf goEnv (between 18446744073709551615 k es) := by
  refine ⟨by decide +kernel, by decide +kernel, by decide +kernel, by decide +kernel,
    by decide +kernel, by decide +kernel, fun k => ?_⟩
  by_cases hk : (18446744073709551615 : UInt64) ≤ k
  · have hone : between 18446744073709551615 k
        [(⟨[7], 0, 0, 0⟩, 18446744073709551615), (⟨[8], 0, 0, 0⟩, 0)] =
        [(⟨[7], 0, 0, 0⟩, 18446744073709551615)] := by
      simp [between, hk]
    rw [hone]
    decide +kernel
  · have hnone : between 18446744073709551615 k
        [(⟨[7], 0, 0, 0⟩, 18446744073709551615), (⟨[8], 0, 0, 0⟩, 0)] = [] := by
      simp [between, hk]
    rw [hnone]
    decide +kernel

end WholeFrames

end DistributedLog
