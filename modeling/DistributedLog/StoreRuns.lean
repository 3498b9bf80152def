import DistributedLog.Store
import DistributedLog.Trace

/-!
# The store over a whole run

A store as a machine of its own: appends, reads at whatever position, and
closings after which the file is opened again. At any moment some of the
bytes are in the file and the others in the buffer, cut wherever the writer
last cut them, and reads look at the file only.

`Framed` carries every run: file and buffer together are the frames of the
payloads appended so far, and `size` is their length. `store_faithful` reads
off it what any further operation returns.
-/

namespace DistributedLog.StoreRun

/-- A store and the directory that its file is in. -/
abbrev StoreState := Store × Dir

inductive Event where
  | append (p : Bytes) (n pos : UInt64)
  | read (pos : UInt64)
  | readAt (n off : Nat)
  | reopen
deriving DecidableEq, Repr

/-- The operations that a run is made of. The file does not outgrow the file
system; the reads may be of anything and return anything. -/
inductive Step (E : Env) : StoreState → Event → StoreState → Prop where
  | append {s s' : Store} {d d' : Dir} {p : Bytes} {n pos : UInt64} :
      s.append E d p = (.ok (n, pos), s', d') → (s'.bytes d').length < 2 ^ 63 →
      Step E (s, d) (.append p n pos) (s', d')
  | read {s s' : Store} {d d' : Dir} {pos : UInt64} {res : Result Bytes} :
      s.read d pos = (res, s', d') → Step E (s, d) (.read pos) (s', d')
  | readAt {s s' : Store} {d d' : Dir} {n off : Nat} {res : Result (Bytes × Option Err)} :
      s.readAt d n off = (res, s', d') → Step E (s, d) (.readAt n off) (s', d')
  | reopen {s s₁ : Store} {d d₁ : Dir} :
      s.close d = (.ok (), s₁, d₁) → Step E (s, d) .reopen (newStore d₁ s₁.name, d₁)

section executable

variable {E : Env} {s : StoreState}

theorem Step.append_of (p : Bytes) (n pos : UInt64) (h : (s.1.append E s.2 p).1 = .ok (n, pos))
    (hfit : ((s.1.append E s.2 p).2.1.bytes (s.1.append E s.2 p).2.2).length < 2 ^ 63) :
    Step E s (.append p n pos) (s.1.append E s.2 p).2 :=
  .append (Prod.ext h rfl) hfit

theorem Step.reopen_of (h : (s.1.close s.2).1 = .ok ()) :
    Step E s .reopen (newStore (s.1.close s.2).2.2 (s.1.close s.2).2.1.name,
      (s.1.close s.2).2.2) :=
  .reopen (Prod.ext h rfl)

end executable

/-- The payloads appended so far. -/
def payloads (es : List Event) : List Bytes :=
  es.filterMap fun
    | .append p _ _ => some p
    | _ => none

theorem payloads_snoc (es : List Event) (e : Event) :
    payloads (es ++ [e]) = payloads es ++ payloads [e] :=
  List.filterMap_append

/-- The store holds the frames of the payloads. -/
structure Framed (s : StoreState) (ps : List Bytes) : Prop where
  carries : s.1.Carries s.2 (ps.flatMap frame)
  size : s.1.size.toNat = (ps.flatMap frame).length
  fits : (ps.flatMap frame).length < 2 ^ 63

variable {E : Env} {s s' : StoreState} {ps : List Bytes}

theorem Framed.append {p : Bytes} {n pos : UInt64} (h : Framed s ps)
    (happ : s.1.append E s.2 p = (.ok (n, pos), s')) (hfit : (s'.1.bytes s'.2).length < 2 ^ 63) :
    Framed s' (ps ++ [p]) := by
  obtain ⟨s₁, d₁, happ₁, hcar, -, hsize, -⟩ := Store.append_spec h.carries E p
  rw [happ, Prod.mk.injEq] at happ₁
  obtain ⟨-, rfl⟩ := happ₁
  have hframes : (ps ++ [p]).flatMap frame = ps.flatMap frame ++ frame p := by simp
  rw [hcar.bytes, ← hframes] at hfit
  refine ⟨hframes ▸ hcar, ?_, hfit⟩
  rw [hframes, List.length_append, length_frame] at hfit ⊢
  rw [hsize, UInt64.toNat_add, h.size, UInt64.toNat_ofNat']
  omega

/-- A read flushes the buffer and returns from there, whatever it returns. -/
theorem Framed.read (h : Framed s ps) {pos : UInt64} {res : Result Bytes}
    (hread : s.1.read s.2 pos = (res, s')) : Framed s' ps := by
  obtain ⟨s₁, d₁, hfl, hcar, -, -, hsize, -⟩ := Store.flush_spec h.carries
  have hs' : s' = (s₁, d₁) := by
    simp only [Store.read, hfl] at hread
    split at hread
    · exact (Prod.mk.inj hread).2.symm
    · split at hread <;> exact (Prod.mk.inj hread).2.symm
  rw [hs']
  exact ⟨hcar, hsize ▸ h.size, h.fits⟩

theorem Framed.readAt (h : Framed s ps) {n off : Nat} {res : Result (Bytes × Option Err)}
    (hread : s.1.readAt s.2 n off = (res, s')) : Framed s' ps := by
  obtain ⟨s₁, d₁, hfl, hcar, -, -, hsize, -⟩ := Store.flush_spec h.carries
  have hs' : s' = (s₁, d₁) := by
    simp only [Store.readAt, hfl] at hread
    exact (Prod.mk.inj hread).2.symm
  rw [hs']
  exact ⟨hcar, hsize ▸ h.size, h.fits⟩

theorem framed_newStore {d : Dir} {name : Name} (hfile : d.content? name = some (ps.flatMap frame))
    (hfit : (ps.flatMap frame).length < 2 ^ 63) : Framed (newStore d name, d) ps := by
  refine ⟨Store.newStore_carries hfile, ?_, hfit⟩
  rw [newStore, hfile, Option.getD_some, UInt64.toNat_ofNat']
  exact Nat.mod_eq_of_lt (by omega)

theorem Framed.reopen (h : Framed s ps) {s₁ : Store} {d₁ : Dir}
    (hclose : s.1.close s.2 = (.ok (), s₁, d₁)) : Framed (newStore d₁ s₁.name, d₁) ps := by
  obtain ⟨s₂, d₂, hclose₂, hname, hfile, -⟩ := Store.close_spec h.carries
  rw [hclose, Prod.mk.injEq, Prod.mk.injEq] at hclose₂
  obtain ⟨-, rfl, rfl⟩ := hclose₂
  exact framed_newStore (hname ▸ hfile) h.fits

theorem Framed.step {e : Event} (h : Framed s ps) (hstep : Step E s e s') :
    Framed s' (ps ++ payloads [e]) := by
  cases hstep with
  | append happ hfit => exact h.append happ hfit
  | read hread =>
      rw [show payloads [.read _] = [] from rfl, List.append_nil]
      exact h.read hread
  | readAt hread =>
      rw [show payloads [.readAt _ _] = [] from rfl, List.append_nil]
      exact h.readAt hread
  | reopen hclose =>
      rw [show payloads [.reopen] = [] from rfl, List.append_nil]
      exact h.reopen hclose

theorem Framed.run {d₀ : Dir} {name : Name} (hfile : d₀.content? name = some []) {es : List Event}
    (htr : Trace (Step E) (newStore d₀ name, d₀) es s) : Framed s (payloads es) := by
  induction htr with
  | init => exact framed_newStore hfile (Nat.two_pow_pos 63)
  | snoc _ hstep ih =>
      rw [payloads_snoc]
      exact ih.step hstep

/-! ## What the operations return -/

/-- A position that an append has returned is where its frame starts. -/
theorem position {d₀ : Dir} {name : Name} (hfile : d₀.content? name = some []) {es : List Event}
    (htr : Trace (Step E) (newStore d₀ name, d₀) es s) {p : Bytes} {n pos : UInt64}
    (hmem : .append p n pos ∈ es) :
    n.toNat = p.length + lenWidth ∧ ∃ pre post, payloads es = pre ++ p :: post ∧
      pos.toNat = (pre.flatMap frame).length := by
  induction htr with
  | init => cases hmem
  | @snoc es e s s' htr hstep ih =>
      rw [payloads_snoc]
      rcases List.mem_append.mp hmem with hmem | hmem
      · obtain ⟨hn, pre, post, hps, hpos⟩ := ih hmem
        refine ⟨hn, pre, post ++ payloads [e], ?_, hpos⟩
        rw [hps, List.append_assoc, List.cons_append]
      · rw [← List.mem_singleton.mp hmem] at hstep ⊢
        have hframed := Framed.run hfile htr
        have hfits := (hframed.step hstep).fits
        cases hstep with
        | append happ hfit =>
            obtain ⟨s₁, d₁, happ₁, -⟩ := Store.append_spec hframed.carries E p
            rw [happ, Prod.mk.injEq, Except.ok.injEq, Prod.mk.injEq] at happ₁
            obtain ⟨⟨rfl, rfl⟩, -⟩ := happ₁
            rw [show payloads [.append p _ _] = [p] from rfl, List.flatMap_append,
              List.length_append, List.flatMap_singleton, length_frame] at hfits
            refine ⟨?_, payloads es, [], rfl, hframed.size⟩
            rw [UInt64.toNat_ofNat']
            exact Nat.mod_eq_of_lt (by omega)

/-- What the store is for, after the operations `es`. -/
structure Faithful (E : Env) (es : List Event) (s : StoreState) : Prop where
  bytes : s.1.bytes s.2 = (payloads es).flatMap frame
  size : s.1.size.toNat = ((s.2.content? s.1.name).getD []).length + s.1.buf.length
  counts : ∀ p n pos, .append p n pos ∈ es → n.toNat = 8 + p.length
  append : ∀ p, ∃ s', s.1.append E s.2 p = (.ok (UInt64.ofNat (8 + p.length), s.1.size), s')
  read : ∀ p n pos, .append p n pos ∈ es → (s.1.read s.2 pos).1 = .ok p
  readAt : ∀ n off, (s.1.readAt s.2 n off).1 = .ok (
    (((payloads es).flatMap frame).drop off).take n,
    if (((payloads es).flatMap frame).drop off).length < n then some .eof else none)
  close : (s.1.close s.2).1 = .ok ()

/-- **The buffered store is a faithful sequence of frames.** -/
theorem store_faithful (E : Env) {d₀ : Dir} {name : Name} (hfile : d₀.content? name = some [])
    {es : List Event} (htr : Trace (Step E) (newStore d₀ name, d₀) es s) : Faithful E es s := by
  have h := Framed.run hfile htr
  refine ⟨h.carries.bytes, ?_, ?_, ?_, ?_, ?_, ?_⟩
  · rw [h.size, ← h.carries.bytes, Store.bytes, List.length_append]
  · intro p n pos hmem
    rw [(position hfile htr hmem).1, lenWidth, Nat.add_comm]
  · intro p
    obtain ⟨s', d', happ, -⟩ := Store.append_spec h.carries E p
    rw [Nat.add_comm]
    exact ⟨(s', d'), happ⟩
  · intro p n pos hmem
    obtain ⟨-, pre, post, hps, hpos⟩ := position hfile htr hmem
    have hsplit : (payloads es).flatMap frame =
        pre.flatMap frame ++ frame p ++ post.flatMap frame := by
      rw [hps, List.flatMap_append, List.flatMap_cons, List.append_assoc]
    have hfits := h.fits
    rw [hsplit, List.length_append] at hfits
    obtain ⟨s', d', hread, -⟩ := Store.read_spec h.carries hsplit (by omega) hpos
    rw [hread]
  · intro n off
    obtain ⟨s', d', hfl, hcar, hf, hname, -⟩ := Store.flush_spec h.carries
    simp only [Store.readAt, hfl]
    rw [Store.fileReadAt_of_open hcar.isOpen (by rw [hname, hf, Option.getD_some])]
  · obtain ⟨s', d', hclose, -⟩ := Store.close_spec h.carries
    rw [hclose]

/-- An empty payload and one of a single byte, each appended to a file that
is then opened again. -/
theorem store_faithful_two_appends :
    ∃ es s, Trace (Step goEnv) (newStore (Directory.empty.create ['s']) ['s'],
        Directory.empty.create ['s']) es s ∧
      .append [] 8 0 ∈ es ∧ .append [7] 9 8 ∈ es ∧ Faithful goEnv es s := by
  have h₁ : Trace (Step goEnv) (newStore (Directory.empty.create ['s']) ['s'],
      Directory.empty.create ['s']) _ _ :=
    Trace.init.snoc (.append_of [] 8 0 (by decide +kernel) (by decide +kernel))
  have h₂ := h₁.snoc (.reopen_of (by decide +kernel))
  have h₃ := h₂.snoc (.append_of [7] 9 8 (by decide +kernel) (by decide +kernel))
  have h₄ := h₃.snoc (.reopen_of (by decide +kernel))
  exact ⟨_, _, h₄, by simp, by simp, store_faithful goEnv (by decide) h₄⟩

end DistributedLog.StoreRun
