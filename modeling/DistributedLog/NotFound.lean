import DistributedLog.Orphans
import DistributedLog.Server

/-!
# Reading outside the log, as a client sees it

`Log.Read` returns an `ErrOffsetOutOfRange`, `WrapToConnectError` looks for a
pointer to one. The two never meet: no handler returns an error that the
interceptor recognises, so the interceptor does nothing (`Plain`), and what
reaches the client of `Consume` is an error without a code of its own.
-/

namespace DistributedLog.Server

/-- `connect.CodeOf`. A handler that panics has no answer to take a code of. -/
def RpcError.code : RpcError → Option Code
  | .connect code _ _ => some code
  | .panic => none
  | _ => some .unknown

def RpcError.details : RpcError → List String
  | .connect _ _ details => details
  | _ => []

/-- The code and the detail that `addErrOffsetOutOfRangeDetails` is written to
give a client. -/
def NotFoundAt (off : UInt64) (res : Except RpcError Response) : Prop :=
  ∃ e, res = .error e ∧ e.code = some .notFound ∧
    "The requested offset is outside the log's range: " ++ toString off ∈ e.details

/-- Below the lowest offset or not written yet: no segment has it. -/
def Outside (s : LogState) (off : UInt64) : Prop := ∀ t ∈ s.1.segments, ¬ Log.covers off t

section

variable {σ : Type} {f : UnaryFunc σ} {C : CommitLog σ}

/-- None of the errors is one that `WrapToConnectError` would change, or has
the code that it would give. -/
def Plain (f : UnaryFunc σ) : Prop :=
  ∀ user m s e, (f user m s).1 = .error e → e.asOutOfRange = none ∧ e.code ≠ some .notFound

theorem plain_handler (C : CommitLog σ) : Plain (handler C) := by
  have hfail : ∀ e : Fail, (RpcError.ofFail e).asOutOfRange = none ∧
      (RpcError.ofFail e).code ≠ some .notFound := by
    intro e
    cases e <;> exact ⟨rfl, by simp [RpcError.ofFail, RpcError.code]⟩
  intro user m s e h
  cases m with
  | produce record =>
      rcases happ : C.append s record with ⟨_ | _, _⟩
      · simp only [handler, happ, Except.error.injEq] at h
        exact h ▸ hfail _
      · simp [handler, happ] at h
  | consume off =>
      rcases hread : C.read s off with ⟨_ | _, _⟩
      · simp only [handler, hread, Except.error.injEq] at h
        exact h ▸ hfail _
      · simp [handler, hread] at h

theorem Plain.errorInterceptor (h : Plain f) : Server.errorInterceptor f = f := by
  funext user m s
  rcases hf : f user m s with ⟨e | res, s'⟩
  · have hnone := (h user m s e (by rw [hf])).1
    simp only [Server.errorInterceptor, hf, wrapToConnectError, hnone]
  · simp only [Server.errorInterceptor, hf]

theorem Plain.interceptor (h : Plain f) (A : Authorizer) : Plain (A.interceptor f) := by
  intro user m s e he
  unfold Authorizer.interceptor at he
  split at he
  · cases he
    exact ⟨rfl, by simp [RpcError.code]⟩
  · cases he
    exact ⟨rfl, by simp [RpcError.code]⟩
  · exact h user m s e he

theorem Plain.not_notFoundAt (h : Plain f) (user : String) (m : Message) (s : σ) (off : UInt64) :
    ¬ NotFoundAt off (f user m s).1 := by
  rintro ⟨e, he, hcode, -⟩
  exact (h user m s e he).2 hcode

theorem errorInterceptor_handler (C : CommitLog σ) :
    errorInterceptor (handler C) = handler C :=
  (plain_handler C).errorInterceptor

/-- With all its interceptors, the server runs the handler for those who may
call it. -/
theorem unaryFunc_eq (A : Authorizer) (C : CommitLog σ) :
    unaryFunc A C = A.interceptor (handler C) := by
  rw [unaryFunc, errorInterceptor_handler, loggingInterceptor,
    ((plain_handler C).interceptor A).errorInterceptor]

end

theorem consume_outside (E : Env) (user : String) {s : LogState} {off : UInt64}
    (hout : Outside s off) :
    (handler (commitLog E) user (.consume off) s).1 =
      .error (.commit (.offsetOutOfRange off)) := by
  have hread : (s.1.read E s.2 off).1 = .error (.err (.offsetOutOfRange off)) :=
    Log.read_outside hout
  rcases hres : s.1.read E s.2 off with ⟨res, s'⟩
  rw [hres] at hread
  simp only at hread
  subst hread
  simp only [handler, commitLog, hres]
  rfl

/-- The first offset of a log just opened. -/
theorem outside_fresh_log : Outside (newLog Directory.empty ⟨64, 24, 0⟩).2 0 := by
  unfold Outside Log.covers
  decide +kernel

/-- **Reading outside the log is never reported as not found**, and no other
error is: what the client sees has the code Unknown and no detail. -/
theorem consume_never_notFound (E : Env) (A : Authorizer) (user : String) (s : LogState) :
    (∀ off, Outside s off →
      (errorInterceptor (handler (commitLog E)) user (.consume off) s).1 =
        .error (.commit (.offsetOutOfRange off))) ∧
    (∀ off, ¬ NotFoundAt off (errorInterceptor (handler (commitLog E)) user (.consume off) s).1 ∧
      ¬ NotFoundAt off (unaryFunc A (commitLog E) user (.consume off) s).1) ∧
    ∀ m e, (errorInterceptor (handler (commitLog E)) user m s).1 = .error e ∨
        (unaryFunc A (commitLog E) user m s).1 = .error e →
      e.code ≠ some .notFound := by
  have hplain := plain_handler (commitLog E)
  have hplain' := hplain.interceptor A
  rw [errorInterceptor_handler, unaryFunc_eq]
  refine ⟨fun off hout => consume_outside E user hout, fun off => ⟨?_, ?_⟩, ?_⟩
  · exact hplain.not_notFoundAt user (.consume off) s off
  · exact hplain'.not_notFoundAt user (.consume off) s off
  · rintro m e (he | he)
    · exact (hplain user m s e he).2
    · exact (hplain' user m s e he).2

theorem consume_never_notFound_fresh_log :
    Outside (newLog Directory.empty ⟨64, 24, 0⟩).2 0 ∧
      (errorInterceptor (handler (commitLog goEnv)) "root" (.consume 0)
        (newLog Directory.empty ⟨64, 24, 0⟩).2).1 = .error (.commit (.offsetOutOfRange 0)) := by
  exact ⟨outside_fresh_log,
    (consume_never_notFound goEnv (.new []) "root" _).1 0 outside_fresh_log⟩

/-- A log just opened: its first offset is not written yet, and `Consume` of it
ends in an error with the code Unknown. -/
theorem consume_first_offset_unknown :
    (newLog Directory.empty ⟨64, 24, 0⟩).1 = .ok () ∧
      Outside (newLog Directory.empty ⟨64, 24, 0⟩).2 0 ∧
      (∃ e, (errorInterceptor (handler (commitLog goEnv)) "root" (.consume 0)
          (newLog Directory.empty ⟨64, 24, 0⟩).2).1 = .error e ∧
        e.code = some .unknown ∧ e.details = []) ∧
      ¬ NotFoundAt 0 (errorInterceptor (handler (commitLog goEnv)) "root" (.consume 0)
        (newLog Directory.empty ⟨64, 24, 0⟩).2).1 := by
  have hres := consume_outside goEnv "root" outside_fresh_log
  rw [errorInterceptor_handler, hres]
  refine ⟨by decide +kernel, outside_fresh_log, ⟨_, rfl, rfl, rfl⟩, ?_⟩
  rintro ⟨e, he, hcode, -⟩
  cases he
  cases hcode

end DistributedLog.Server
