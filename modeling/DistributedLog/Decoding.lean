import DistributedLog.Fsm

/-!
# What the snapshot decoder accepts

The frame loop of `fsm.Restore`, apart from the log that it fills. `Sink` is
what it uses of the log, and `restore_eq_frameLoop` says that `Fsm.restore`
is the loop on the log itself; here `Reset` and `Append` are taken to
succeed.

The format is a sequence of frames. What the loop takes is a sequence of
*pieces*, each a length and the payload that the loop reads behind it. A
piece is a frame unless its length is 2^63 or more: `int64(size)` is then
negative, `io.CopyN` copies nothing, and a length with no payload is taken
for a whole piece. So the loop accepts exactly the streams of taken pieces
(`frameLoop_cases`), and that is the format as long as no such length is
among them (`decodes_iff`).
-/

namespace DistributedLog.Fsm

/-- What `Restore` calls: `Log.Reset`, with the offset of the first record to
start from, and `Log.Append`. -/
structure Sink (σ : Type) where
  reset : σ → Record → Result Unit × σ
  append : σ → Record → Result UInt64 × σ

/-- The frame loop of `fsm.Restore`; `first` is `i == 0`. -/
def frameLoop {σ : Type} (E : Env) (K : Sink σ) : Nat → Bool → σ → Bytes → Result Unit × σ
  | 0, _, s, _ => (.ok (), s)
  | fuel + 1, first, s, stream =>
      match nextFrame stream with
      | .error e => (.error e, s)
      | .ok none => (.ok (), s)
      | .ok (some (p, rest)) =>
          match E.unmarshal p with
          | none => (.error (.err .unmarshal), s)
          | some record =>
              match (if first then K.reset s record else (.ok (), s) : Result Unit × σ) with
              | (.error e, s) => (.error e, s)
              | (.ok _, s) =>
                  match K.append s record with
                  | (.error e, s) => (.error e, s)
                  | (.ok _, s) => frameLoop E K fuel false s rest

/-- The log as the loop uses it. -/
def logSink (E : Env) : Sink LogState where
  reset s record := resetTo s.1 s.2 record
  append s record := s.1.append E s.2 (some record)

theorem restoreLoop_eq_frameLoop (E : Env) (fuel : Nat) (first : Bool) (l : Log) (d : Dir)
    (stream : Bytes) :
    restoreLoop E fuel first l d stream = frameLoop E (logSink E) fuel first (l, d) stream := by
  induction fuel generalizing first l d stream with
  | zero => rfl
  | succ fuel ih =>
      rw [restoreLoop, frameLoop]
      cases nextFrame stream with
      | error e => rfl
      | ok next =>
          cases next with
          | none => rfl
          | some pr =>
              obtain ⟨p, rest⟩ := pr
              simp only
              cases E.unmarshal p with
              | none => rfl
              | some record =>
                  simp only [logSink]
                  generalize (if first then resetTo l d record else (.ok (), l, d) :
                    Result Unit × Log × Dir) = reset
                  obtain ⟨_ | _, l₁, d₁⟩ := reset
                  · rfl
                  · simp only
                    rcases l₁.append E d₁ (some record) with ⟨_ | _, l₂, d₂⟩
                    · rfl
                    · exact ih false l₂ d₂ rest

/-- `fsm.Restore` is the loop on the log. -/
theorem restore_eq_frameLoop (E : Env) (l : Log) (d : Dir) (stream : Bytes) :
    restore E l d stream = frameLoop E (logSink E) (stream.length + 1) true (l, d) stream :=
  restoreLoop_eq_frameLoop E _ _ l d stream

/-! ## Pieces -/

/-- A length, and the payload read behind it. -/
structure Piece where
  size : UInt64
  payload : Bytes
deriving DecidableEq, Repr

namespace Piece

def bytes (q : Piece) : Bytes := putUint64 q.size ++ q.payload

/-- The length, as an unsigned number, is that of the payload. -/
def IsFrame (q : Piece) : Prop := q.payload.length = q.size.toNat

/-- A length that is negative as an `int64`, and no payload. -/
def IsBare (q : Piece) : Prop := 2 ^ 63 ≤ q.size.toNat ∧ q.payload = []

instance (q : Piece) : Decidable q.IsFrame := inferInstanceAs (Decidable (_ = _))

instance (q : Piece) : Decidable q.IsBare := inferInstanceAs (Decidable (_ ∧ _))

/-- What the loop takes for a frame. -/
def Taken (q : Piece) : Prop :=
  q.payload.length = if 2 ^ 63 ≤ q.size.toNat then 0 else q.size.toNat

theorem length_bytes (q : Piece) : q.bytes.length = q.payload.length + lenWidth := by
  rw [bytes, List.length_append, length_putUint64, lenWidth, Nat.add_comm]

theorem taken_iff {q : Piece} :
    q.Taken ↔ (q.IsFrame ∧ q.size.toNat < 2 ^ 63) ∨ q.IsBare := by
  unfold Taken IsFrame IsBare
  by_cases hsize : 2 ^ 63 ≤ q.size.toNat
  · rw [if_pos hsize, List.length_eq_zero_iff]
    constructor
    · exact fun h => .inr ⟨hsize, h⟩
    · rintro (⟨-, hlt⟩ | ⟨-, h⟩)
      · omega
      · exact h
  · rw [if_neg hsize]
    constructor
    · exact fun h => .inl ⟨h, by omega⟩
    · rintro (⟨h, -⟩ | ⟨hle, -⟩)
      · exact h
      · omega

end Piece

/-- Where a piece starts, only one does, if the length decides how much is
read behind it. -/
theorem Piece.append_inj (g : UInt64 → Nat) {q q' : Piece} (hq : q.payload.length = g q.size)
    (hq' : q'.payload.length = g q'.size) {rest rest' : Bytes}
    (h : q.bytes ++ rest = q'.bytes ++ rest') : q = q' ∧ rest = rest' := by
  obtain ⟨size, p⟩ := q
  obtain ⟨size', p'⟩ := q'
  rw [Piece.bytes, Piece.bytes, List.append_assoc, List.append_assoc] at h
  obtain ⟨hsize, hrest⟩ := List.append_inj h (by rw [length_putUint64, length_putUint64])
  obtain rfl : size = size' := by
    rw [← getUint64_putUint64 size, hsize, getUint64_putUint64]
  obtain ⟨rfl, rfl⟩ := List.append_inj hrest (hq.trans hq'.symm)
  exact ⟨rfl, rfl⟩

/-- How much the loop reads behind a length. -/
def taken (size : UInt64) : Nat := if 2 ^ 63 ≤ size.toNat then 0 else size.toNat

theorem nextFrame_piece {q : Piece} (hq : q.Taken) (rest : Bytes) :
    nextFrame (q.bytes ++ rest) = .ok (some (q.payload, rest)) := by
  have hlen : lenWidth ≤ (q.bytes ++ rest).length := by
    rw [List.length_append, q.length_bytes]
    omega
  have hne : (q.bytes ++ rest).isEmpty = false := by
    rw [List.isEmpty_eq_false_iff]
    intro hnil
    rw [hnil] at hlen
    exact absurd hlen (by decide)
  have hwidth : (putUint64 q.size).length = lenWidth := length_putUint64 _
  have htake : (q.bytes ++ rest).take lenWidth = putUint64 q.size := by
    rw [Piece.bytes, List.append_assoc, ← hwidth, List.take_left]
  have hdrop : (q.bytes ++ rest).drop lenWidth = q.payload ++ rest := by
    rw [Piece.bytes, List.append_assoc, ← hwidth, List.drop_left]
  unfold nextFrame
  rw [hne, if_neg Bool.false_ne_true, if_neg (by omega), htake, hdrop, getUint64_putUint64]
  simp only
  rw [← hq, if_neg (by rw [List.length_append]; omega), List.take_left, List.drop_left]

/-- What the loop reads of a stream that has a length at least. -/
theorem nextFrame_of_le {stream : Bytes} (h : lenWidth ≤ stream.length) :
    (∃ q rest, Piece.Taken q ∧ stream = q.bytes ++ rest) ∨
      nextFrame stream = .error (.err .eof) := by
  generalize hsize : getUint64 (stream.take lenWidth) = size
  generalize hn : (if 2 ^ 63 ≤ size.toNat then 0 else size.toNat) = n
  by_cases hrest : (stream.drop lenWidth).length < n
  · right
    have hne : stream.isEmpty = false := by
      rw [List.isEmpty_eq_false_iff]
      intro hnil
      rw [hnil] at h
      exact absurd h (by decide)
    unfold nextFrame
    rw [hne, if_neg Bool.false_ne_true, if_neg (by omega), hsize]
    simp only [hn]
    rw [if_pos hrest]
  · left
    refine ⟨⟨size, (stream.drop lenWidth).take n⟩, (stream.drop lenWidth).drop n, ?_, ?_⟩
    · rw [Piece.Taken, List.length_take, hn]
      omega
    · rw [Piece.bytes, ← hsize,
        putUint64_getUint64 (by rw [List.length_take]; exact Nat.min_eq_left h),
        List.append_assoc, List.take_append_drop, List.take_append_drop]

/-- **What a round of the loop reads**: nothing, at the end; a piece; or it
fails, with an error, where no piece starts. -/
theorem nextFrame_cases (stream : Bytes) :
    (stream = [] ∧ nextFrame stream = .ok none) ∨
    (∃ q rest, Piece.Taken q ∧ stream = q.bytes ++ rest ∧
      nextFrame stream = .ok (some (q.payload, rest))) ∨
    stream ≠ [] ∧ (∀ q rest, Piece.Taken q → stream ≠ q.bytes ++ rest) ∧
      ∃ e, nextFrame stream = .error (.err e) := by
  rcases eq_or_ne stream [] with rfl | hne
  · exact .inl ⟨rfl, rfl⟩
  by_cases hex : ∃ q rest, Piece.Taken q ∧ stream = q.bytes ++ rest
  · obtain ⟨q, rest, hq, rfl⟩ := hex
    exact .inr (.inl ⟨q, rest, hq, rfl, nextFrame_piece hq rest⟩)
  · refine .inr (.inr ⟨hne, fun q rest hq heq => hex ⟨q, rest, hq, heq⟩, ?_⟩)
    by_cases hlen : stream.length < lenWidth
    · refine ⟨.unexpectedEOF, ?_⟩
      unfold nextFrame
      rw [List.isEmpty_eq_false_iff.mpr hne, if_neg Bool.false_ne_true, if_pos hlen]
    · exact ⟨.eof, (nextFrame_of_le (by omega)).resolve_left hex⟩

/-! ## Streams of pieces -/

/-- The stream is made of pieces of the kind, and their payloads decode to
the records. -/
def Made (E : Env) (P : Piece → Prop) (stream : Bytes) (rs : List Record) : Prop :=
  ∃ qs : List Piece, (∀ q ∈ qs, P q) ∧ stream = qs.flatMap Piece.bytes ∧
    qs.map (fun q => E.unmarshal q.payload) = rs.map some

variable {E : Env}

theorem made_nil {P : Piece → Prop} : Made E P [] [] :=
  ⟨[], fun _ hq => absurd hq List.not_mem_nil, rfl, rfl⟩

theorem Made.cons {P : Piece → Prop} {q : Piece} (hq : P q) {r : Record}
    (hr : E.unmarshal q.payload = some r) {rest : Bytes} {rs : List Record}
    (h : Made E P rest rs) : Made E P (q.bytes ++ rest) (r :: rs) := by
  obtain ⟨qs, hqs, rfl, hrs⟩ := h
  refine ⟨q :: qs, ?_, rfl, by rw [List.map_cons, List.map_cons, hr, hrs]⟩
  intro q' hq'
  rcases List.mem_cons.mp hq' with rfl | hq'
  · exact hq
  · exact hqs q' hq'

/-- The first piece of a stream, if it has one. -/
theorem Made.head {stream : Bytes} {rs : List Record} (h : Made E Piece.Taken stream rs) :
    stream = [] ∨ ∃ q rest r rs', Piece.Taken q ∧ stream = q.bytes ++ rest ∧
      E.unmarshal q.payload = some r ∧ rs = r :: rs' ∧ Made E Piece.Taken rest rs' := by
  obtain ⟨qs, hqs, rfl, hrs⟩ := h
  cases qs with
  | nil => exact .inl rfl
  | cons q qs =>
      cases rs with
      | nil => simp at hrs
      | cons r rs =>
          rw [List.map_cons, List.map_cons, List.cons.injEq] at hrs
          exact .inr ⟨q, qs.flatMap Piece.bytes, r, rs, hqs q List.mem_cons_self, rfl, hrs.1, rfl,
            qs, fun q' hq' => hqs q' (List.mem_cons_of_mem _ hq'), rfl, hrs.2⟩

theorem flatMap_bytes_inj (g : UInt64 → Nat) {qs qs' : List Piece}
    (hqs : ∀ q ∈ qs, q.payload.length = g q.size) (hqs' : ∀ q ∈ qs', q.payload.length = g q.size)
    (h : qs.flatMap Piece.bytes = qs'.flatMap Piece.bytes) : qs = qs' := by
  have hne : ∀ (q : Piece) (rest : Bytes), q.bytes ++ rest ≠ [] := by
    intro q rest hnil
    have hlen := congrArg List.length hnil
    rw [List.length_append, q.length_bytes, lenWidth, List.length_nil] at hlen
    omega
  induction qs generalizing qs' with
  | nil =>
      cases qs' with
      | nil => rfl
      | cons q' qs' => exact absurd h.symm (hne q' _)
  | cons q qs ih =>
      cases qs' with
      | nil => exact absurd h (hne q _)
      | cons q' qs' =>
          obtain ⟨rfl, hrest⟩ := Piece.append_inj g (hqs q List.mem_cons_self)
            (hqs' q' List.mem_cons_self) h
          rw [ih (fun q hq => hqs q (List.mem_cons_of_mem _ hq))
            (fun q hq => hqs' q (List.mem_cons_of_mem _ hq)) hrest]

/-- A stream decodes in one way only. -/
theorem Made.unique {P : Piece → Prop} (g : UInt64 → Nat)
    (hP : ∀ q, P q → q.payload.length = g q.size) {stream : Bytes} {rs rs' : List Record}
    (h : Made E P stream rs) (h' : Made E P stream rs') : rs = rs' := by
  obtain ⟨qs, hqs, rfl, hrs⟩ := h
  obtain ⟨qs', hqs', hstream, hrs'⟩ := h'
  obtain rfl := flatMap_bytes_inj g (fun q hq => hP q (hqs q hq))
    (fun q hq => hP q (hqs' q hq)) hstream
  exact List.map_injective_iff.mpr (Option.some_injective _) (hrs.symm.trans hrs')

/-! ## The loop -/

section total

variable {σ : Type} {reset : σ → Record → σ} {append : σ → Record → UInt64 × σ}

/-- A log whose `Reset` and `Append` always succeed. -/
def Sink.total (reset : σ → Record → σ) (append : σ → Record → UInt64 × σ) : Sink σ where
  reset s record := (.ok (), reset s record)
  append s record := (.ok (append s record).1, (append s record).2)

/-- The records appended in order, the first one after a reset. -/
def restored (reset : σ → Record → σ) (append : σ → Record → UInt64 × σ) (first : Bool) (s : σ) :
    List Record → σ
  | [] => s
  | r :: rs =>
      (r :: rs).foldl (fun s r => (append s r).2) (if first then reset s r else s)

theorem restored_cons (first : Bool) (s : σ) (r : Record) (rs : List Record) :
    restored reset append first s (r :: rs) =
      restored reset append false (append (if first then reset s r else s) r).2 rs := by
  cases rs <;> rfl

theorem frameLoop_succ (fuel : Nat) (first : Bool) (s : σ) {q : Piece} (hq : q.Taken)
    (rest : Bytes) :
    frameLoop E (.total reset append) (fuel + 1) first s (q.bytes ++ rest) =
      match E.unmarshal q.payload with
      | none => (.error (.err .unmarshal), s)
      | some r => frameLoop E (.total reset append) fuel false
          (append (if first then reset s r else s) r).2 rest := by
  rw [frameLoop, nextFrame_piece hq]
  simp only
  cases E.unmarshal q.payload with
  | none => rfl
  | some r => cases first <;> rfl

/-- **What the loop accepts**, with fuel for every round: the streams of
pieces, whose records it appends. Any other stream is an error. -/
theorem frameLoop_cases {fuel : Nat} (first : Bool) (s : σ) {stream : Bytes}
    (hfuel : stream.length < fuel) :
    (∃ rs, Made E Piece.Taken stream rs ∧
      frameLoop E (.total reset append) fuel first s stream =
        (.ok (), restored reset append first s rs)) ∨
    (∀ rs, ¬ Made E Piece.Taken stream rs) ∧
      ∃ e s', frameLoop E (.total reset append) fuel first s stream = (.error (.err e), s') := by
  induction fuel generalizing first s stream with
  | zero => omega
  | succ fuel ih =>
      rcases nextFrame_cases stream with ⟨rfl, hnext⟩ | ⟨q, rest, hq, rfl, -⟩ | ⟨hne, hno, e, herr⟩
      · exact .inl ⟨[], made_nil, by rw [frameLoop, hnext]; rfl⟩
      · -- the piece that the round reads is the first one of every stream of pieces
        have hhead : ∀ rs, Made E Piece.Taken (q.bytes ++ rest) rs → ∃ r rs',
            E.unmarshal q.payload = some r ∧ rs = r :: rs' ∧ Made E Piece.Taken rest rs' := by
          intro rs hmade
          rcases hmade.head with hnil | ⟨q', rest', r, rs', hq', heq, hr, hrs, hrest⟩
          · have hlen := congrArg List.length hnil
            rw [List.length_append, q.length_bytes, lenWidth, List.length_nil] at hlen
            omega
          · obtain ⟨rfl, rfl⟩ := Piece.append_inj taken hq hq' heq
            exact ⟨r, rs', hr, hrs, hrest⟩
        rw [List.length_append, q.length_bytes, lenWidth] at hfuel
        rw [frameLoop_succ fuel first s hq rest]
        cases hr : E.unmarshal q.payload with
        | none =>
            refine .inr ⟨fun rs hmade => ?_, .unmarshal, s, rfl⟩
            obtain ⟨r, rs', hr', -⟩ := hhead rs hmade
            rw [hr] at hr'
            cases hr'
        | some r =>
            rcases ih false (append (if first then reset s r else s) r).2
              (show rest.length < fuel by omega) with ⟨rs, hmade, hok⟩ | ⟨hno, herr⟩
            · refine .inl ⟨r :: rs, hmade.cons hq hr, ?_⟩
              rw [restored_cons]
              exact hok
            · refine .inr ⟨fun rs hmade => ?_, herr⟩
              obtain ⟨r', rs', -, -, hrest⟩ := hhead rs hmade
              exact hno rs' hrest
      · refine .inr ⟨fun rs hmade => ?_, e, s, by rw [frameLoop, herr]⟩
        rcases hmade.head with hnil | ⟨q, rest, r, rs', hq, heq, -⟩
        · exact hne hnil
        · exact hno q rest hq heq

/-- More fuel changes nothing: a round takes the bytes of a length at least. -/
theorem frameLoop_fuel {fuel fuel' : Nat} (first : Bool) (s : σ) {stream : Bytes}
    (hfuel : stream.length < fuel) (hfuel' : stream.length < fuel') :
    frameLoop E (.total reset append) fuel first s stream =
      frameLoop E (.total reset append) fuel' first s stream := by
  induction fuel generalizing fuel' first s stream with
  | zero => omega
  | succ fuel ih =>
      obtain ⟨fuel', rfl⟩ := Nat.exists_eq_succ_of_ne_zero (show fuel' ≠ 0 by omega)
      rcases nextFrame_cases stream with ⟨-, hnext⟩ | ⟨q, rest, hq, rfl, -⟩ | ⟨-, -, e, herr⟩
      · rw [frameLoop, frameLoop, hnext]
      · rw [List.length_append, q.length_bytes, lenWidth] at hfuel hfuel'
        rw [frameLoop_succ fuel first s hq, Nat.succ_eq_add_one, frameLoop_succ fuel' first s hq]
        cases E.unmarshal q.payload with
        | none => rfl
        | some r => exact ih _ _ (by omega) (by omega)
      · rw [frameLoop, frameLoop, herr]

/-! ## The format -/

/-- What the loop is for: it ends, whatever the stream; of a sequence of
frames it appends the records, in order; and any other stream is an error. -/
structure Decodes (E : Env) (reset : σ → Record → σ) (append : σ → Record → UInt64 × σ) (s : σ)
    (stream : Bytes) : Prop where
  ends : ∀ fuel, stream.length < fuel →
    frameLoop E (.total reset append) fuel true s stream =
      frameLoop E (.total reset append) (stream.length + 1) true s stream
  accepts : ∀ rs, Made E Piece.IsFrame stream rs →
    frameLoop E (.total reset append) (stream.length + 1) true s stream =
      (.ok (), restored reset append true s rs)
  rejects : (∀ rs, ¬ Made E Piece.IsFrame stream rs) → ∃ e s',
    frameLoop E (.total reset append) (stream.length + 1) true s stream = (.error (.err e), s')

/-- Frames and bare lengths, one of these at least. -/
def Misread (E : Env) (stream : Bytes) : Prop :=
  ∃ (qs : List Piece) (rs : List Record), (∀ q ∈ qs, q.IsFrame ∨ q.IsBare) ∧
    (∃ q ∈ qs, q.IsBare) ∧ stream = qs.flatMap Piece.bytes ∧
    qs.map (fun q => E.unmarshal q.payload) = rs.map some

theorem length_payload_le {qs : List Piece} {q : Piece} (hq : q ∈ qs) :
    q.payload.length ≤ (qs.flatMap Piece.bytes).length := by
  obtain ⟨pre, post, rfl⟩ := List.append_of_mem hq
  rw [List.flatMap_append, List.flatMap_cons, List.length_append, List.length_append,
    q.length_bytes]
  omega

/-- In a stream this short the lengths of the frames are not negative. -/
theorem taken_of_isFrame {qs : List Piece} (hlen : (qs.flatMap Piece.bytes).length < 2 ^ 63)
    {q : Piece} (hq : q ∈ qs) (h : q.IsFrame) : q.Taken := by
  have hle := length_payload_le hq
  rw [h] at hle
  exact Piece.taken_iff.mpr (.inl ⟨h, by omega⟩)

theorem taken_of_isFrame_or_isBare {qs : List Piece}
    (hlen : (qs.flatMap Piece.bytes).length < 2 ^ 63) (h : ∀ q ∈ qs, q.IsFrame ∨ q.IsBare) :
    ∀ q ∈ qs, q.Taken := by
  intro q hq
  rcases h q hq with hframe | hbare
  · exact taken_of_isFrame hlen hq hframe
  · exact Piece.taken_iff.mpr (.inr hbare)

theorem Piece.IsBare.not_isFrame {q : Piece} (h : q.IsBare) : ¬ q.IsFrame := by
  intro hframe
  have hsize := h.1
  rw [Piece.IsFrame, h.2, List.length_nil] at hframe
  omega

/-- A stream of frames is not made of anything else. -/
theorem Made.not_misread {stream : Bytes} (hlen : stream.length < 2 ^ 63) {rs : List Record}
    (h : Made E Piece.IsFrame stream rs) : ¬ Misread E stream := by
  rintro ⟨qs, -, hqs, ⟨bare, hmem, hbare⟩, rfl, -⟩
  obtain ⟨qs', hframes, hstream, -⟩ := h
  have htaken := taken_of_isFrame_or_isBare hlen hqs
  rw [hstream] at hlen
  obtain rfl := flatMap_bytes_inj taken htaken
    (fun q hq => taken_of_isFrame hlen hq (hframes q hq)) hstream
  exact hbare.not_isFrame (hframes bare hmem)

/-- **When the decoder accepts exactly its format.** A length of 2^63 or more
is taken for a frame without a payload, so a stream with such a length where
a frame should start is accepted if the rest of it is. -/
theorem decodes_iff (E : Env) (reset : σ → Record → σ) (append : σ → Record → UInt64 × σ) (s : σ)
    {stream : Bytes} (hlen : stream.length < 2 ^ 63) :
    Decodes E reset append s stream ↔ ¬ Misread E stream := by
  have hcases := @frameLoop_cases E σ reset append (stream.length + 1) true s stream
    (Nat.lt_succ_self _)
  constructor
  · intro h hmis
    -- the stream is accepted, so it would have to be one of frames only
    have hno : ∀ rs, ¬ Made E Piece.IsFrame stream rs := fun rs hmade => hmade.not_misread hlen hmis
    obtain ⟨e, s', herr⟩ := h.rejects hno
    rcases hcases with ⟨rs, -, hok⟩ | ⟨htaken, -⟩
    · rw [hok] at herr
      cases herr
    · obtain ⟨qs, rs, hqs, -, rfl, hrs⟩ := hmis
      exact htaken rs ⟨qs, taken_of_isFrame_or_isBare hlen hqs, rfl, hrs⟩
  · intro hgood
    -- nothing but frames is taken
    have hiff : ∀ rs, Made E Piece.Taken stream rs ↔ Made E Piece.IsFrame stream rs := by
      intro rs
      constructor
      · rintro ⟨qs, hqs, hstream, hrs⟩
        refine ⟨qs, fun q hq => ?_, hstream, hrs⟩
        rcases Piece.taken_iff.mp (hqs q hq) with ⟨hframe, -⟩ | hbare
        · exact hframe
        · refine absurd ⟨qs, rs, fun q hq => ?_, ⟨q, hq, hbare⟩, hstream, hrs⟩ hgood
          exact (Piece.taken_iff.mp (hqs q hq)).imp_left And.left
      · rintro ⟨qs, hqs, rfl, hrs⟩
        exact ⟨qs, fun q hq => taken_of_isFrame hlen hq (hqs q hq), rfl, hrs⟩
    refine ⟨fun fuel hfuel => frameLoop_fuel true s hfuel (Nat.lt_succ_self _), ?_, ?_⟩
    · intro rs hmade
      rcases hcases with ⟨rs', hmade', hok⟩ | ⟨hno, -⟩
      · rw [hok, ((hiff rs).mpr hmade).unique taken (fun _ hq => hq) hmade']
      · exact absurd ((hiff rs).mpr hmade) (hno rs)
    · intro hno
      rcases hcases with ⟨rs', hmade', -⟩ | ⟨-, herr⟩
      · exact absurd ((hiff rs').mp hmade') (hno rs')
      · exact herr

end total

/-- A log that is its records. -/
def keepAll (s : List Record) (r : Record) : UInt64 × List Record := (0, s ++ [r])

theorem decodes_one_frame :
    (frame (goEnv.marshal ⟨[7], 0, 0, 0⟩)).length < 2 ^ 63 ∧
      Decodes goEnv (fun _ _ => []) keepAll [] (frame (goEnv.marshal ⟨[7], 0, 0, 0⟩)) := by
  have hlen : (frame (goEnv.marshal ⟨[7], 0, 0, 0⟩)).length < 2 ^ 63 := by decide +kernel
  have hmade : Made goEnv Piece.IsFrame (frame (goEnv.marshal ⟨[7], 0, 0, 0⟩))
      [⟨[7], 0, 0, 0⟩] :=
    ⟨[⟨3, goEnv.marshal ⟨[7], 0, 0, 0⟩⟩], by decide +kernel, by decide +kernel, by decide +kernel⟩
  exact ⟨hlen, (decodes_iff goEnv _ _ _ hlen).mpr (hmade.not_misread hlen)⟩

/-- The length 2^64 - 1, and nothing behind it. -/
theorem frameLoop_accepts_bare_length :
    frameLoop goEnv (.total (fun _ _ => []) keepAll) 9 true [] (List.replicate 8 255) =
        (.ok (), [⟨[], 0, 0, 0⟩]) ∧
      (∀ rs, ¬ Made goEnv Piece.IsFrame (List.replicate 8 255) rs) ∧
      ¬ Decodes goEnv (fun _ _ => []) keepAll [] (List.replicate 8 255) := by
  have hloop : frameLoop goEnv (.total (fun _ _ => []) keepAll) 9 true []
      (List.replicate 8 255) = (.ok (), [⟨[], 0, 0, 0⟩]) := by decide +kernel
  have hmis : Misread goEnv (List.replicate 8 255) :=
    ⟨[⟨18446744073709551615, []⟩], [⟨[], 0, 0, 0⟩], by decide +kernel, by decide +kernel,
      by decide +kernel, by decide +kernel⟩
  have hno : ∀ rs, ¬ Made goEnv Piece.IsFrame (List.replicate 8 255) rs :=
    fun rs hmade => hmade.not_misread (by decide) hmis
  refine ⟨hloop, hno, fun h => ?_⟩
  obtain ⟨e, s', herr⟩ := h.rejects hno
  rw [List.length_replicate, hloop] at herr
  cases herr

end DistributedLog.Fsm
