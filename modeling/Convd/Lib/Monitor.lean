/-
# `Convd.Lib.Monitor` — an object that is used under a lock

The operations on an object take several steps each, all of them under one lock.  Any number of
threads call them, and any of the threads may make the next step:

    call       idle      →  waiting          no precondition
    acquire    waiting   →  inside           waits until the lock is free
    work       inside    →  inside           one step of the operation, on the object
    leave      inside    →  idle             the lock is free again, the call returns

`history` has the calls that returned, in that order.  However the steps were interleaved, it is
the history of a run of whole operations, one after the other, on the object alone
(`Reachable.sequential`); a call returned between its `call` and its `leave`, so this order agrees
with the order in which the calls were made.  And if each operation does what an atomic one does on
some abstraction of the object, it is a history of the atomic ones (`Sequential.atomic`).
-/
import Convd.Lib.Steps
import Mathlib.Logic.Function.Basic

/-- The operations of an object: where one begins, its next step, and what it returns if there is
none. -/
structure Monitor (σ ω π ρ : Type) where
  enter : ω → π
  step : π → σ → π × σ
  result : π → Option ρ

namespace Monitor

open Function Relation Steps

variable {σ ω π ρ ι κ : Type}

/-! ## Whole operations -/

/-- What is left of an operation, done without interruption. -/
inductive Yields (m : Monitor σ ω π ρ) : π → σ → ρ → σ → Prop where
  | done {p : π} {s : σ} {r : ρ} : m.result p = some r → Yields m p s r s
  | step {p : π} {s s' : σ} {r : ρ} : m.result p = none →
      Yields m (m.step p s).1 (m.step p s).2 r s' → Yields m p s r s'

theorem Yields.of_result {m : Monitor σ ω π ρ} {p : π} {s t : σ} {r r' : ρ}
    (h : Yields m p s r t) (hp : m.result p = some r') : r = r' ∧ t = s := by
  cases h with
  | done hdone => exact ⟨Option.some.inj (hdone.symm.trans hp), rfl⟩
  | step hmore _ => exact nomatch hmore.symm.trans hp

theorem Yields.of_none {m : Monitor σ ω π ρ} {p : π} {s t : σ} {r : ρ} (h : Yields m p s r t)
    (hp : m.result p = none) : Yields m (m.step p s).1 (m.step p s).2 r t := by
  cases h with
  | done hdone => exact nomatch hdone.symm.trans hp
  | step _ hrest => exact hrest

/-- Operations done one after the other, on an object that begins as `s`. -/
inductive Sequential (m : Monitor σ ω π ρ) (s : σ) : List (ι × ω × ρ) → σ → Prop where
  | nil : Sequential m s [] s
  | snoc {h : List (ι × ω × ρ)} {t u : σ} {i : ι} {op : ω} {r : ρ} : Sequential m s h t →
      Yields m (m.enter op) t r u → Sequential m s (h ++ [(i, op, r)]) u

/-- Operations that take no time, one after the other. -/
inductive Atomic (apply : κ → ω → ρ × κ) (k : κ) : List (ι × ω × ρ) → κ → Prop where
  | nil : Atomic apply k [] k
  | snoc {h : List (ι × ω × ρ)} {l : κ} {i : ι} {op : ω} : Atomic apply k h l →
      Atomic apply k (h ++ [(i, op, (apply l op).1)]) (apply l op).2

/-- Operations that do, on what they abstract from, what atomic ones do. -/
theorem Sequential.atomic {m : Monitor σ ω π ρ} {apply : κ → ω → ρ × κ} {abs : σ → κ}
    (hop : ∀ op s r t, Yields m (m.enter op) s r t → apply (abs s) op = (r, abs t)) {s t : σ}
    {h : List (ι × ω × ρ)} (hseq : Sequential m s h t) : Atomic apply (abs s) h (abs t) := by
  induction hseq with
  | nil => exact .nil
  | @snoc h t u i op r _ hyields ih =>
      have hatomic : Atomic apply (abs s) (h ++ [(i, op, (apply (abs t) op).1)])
          (apply (abs t) op).2 := .snoc ih
      rwa [hop op t r u hyields] at hatomic

/-! ## Threads -/

/-- Where a thread is. -/
inductive Place (ω π : Type) where
  | idle
  | waiting (op : ω)
  | inside (op : ω) (p : π)

/-- The lock, the object, the threads, and the calls that returned. -/
structure State (ι σ ω π ρ : Type) where
  lock : Option ι
  obj : σ
  place : ι → Place ω π
  history : List (ι × ω × ρ)

/-- Nobody has called yet. -/
def State.start (s : σ) : State ι σ ω π ρ := ⟨none, s, fun _ => .idle, []⟩

/-- Who has the lock is inside, and nobody else; what is left of its operation is left of one that
began where the operations before it ended. -/
structure Exclusive (m : Monitor σ ω π ρ) (s₀ : σ) (s : State ι σ ω π ρ) : Prop where
  lock_iff : ∀ i, s.lock = some i ↔ ∃ op p, s.place i = .inside op p
  sequential : ∃ t, Sequential m s₀ s.history t ∧ (s.lock = none → s.obj = t) ∧
    ∀ i op p, s.place i = .inside op p →
      ∀ r u, Yields m p s.obj r u → Yields m (m.enter op) t r u

variable {m : Monitor σ ω π ρ} {s₀ : σ} {s t : State ι σ ω π ρ} {i : ι}

theorem Exclusive.start (s₀ : σ) : Exclusive m s₀ (.start s₀ : State ι σ ω π ρ) where
  lock_iff _ := ⟨(fun h => nomatch h), fun ⟨_, _, h⟩ => nomatch h⟩
  sequential := ⟨s₀, .nil, fun _ => rfl, fun _ _ _ h => nomatch h⟩

theorem Exclusive.lock_eq (h : Exclusive m s₀ s) {op : ω} {p : π} (hp : s.place i = .inside op p) :
    s.lock = some i := (h.lock_iff i).mpr ⟨op, p, hp⟩

section Steps

variable [DecidableEq ι]

/-- The lock and the object change, and where one thread is. -/
def State.put (s : State ι σ ω π ρ) (i : ι) (lock : Option ι) (obj : σ) (pl : Place ω π)
    (returned : List (ι × ω × ρ)) : State ι σ ω π ρ :=
  ⟨lock, obj, update s.place i pl, s.history ++ returned⟩

theorem State.put_self (s : State ι σ ω π ρ) (i : ι) (lock : Option ι) (obj : σ) (pl : Place ω π)
    (returned : List (ι × ω × ρ)) : (s.put i lock obj pl returned).place i = pl := by
  show update s.place i pl i = pl
  rw [update_self]

theorem State.put_of_ne (s : State ι σ ω π ρ) {i j : ι} (h : j ≠ i) (lock : Option ι) (obj : σ)
    (pl : Place ω π) (returned : List (ι × ω × ρ)) :
    (s.put i lock obj pl returned).place j = s.place j := by
  show update s.place i pl j = s.place j
  rw [update_of_ne h]

/-- One atomic step of a thread. -/
inductive Step (m : Monitor σ ω π ρ) (i : ι) (s : State ι σ ω π ρ) : State ι σ ω π ρ → Prop where
  | call (op : ω) : s.place i = .idle → Step m i s (s.put i s.lock s.obj (.waiting op) [])
  | acquire (op : ω) : s.place i = .waiting op → s.lock = none →
      Step m i s (s.put i (some i) s.obj (.inside op (m.enter op)) [])
  | work (op : ω) (p : π) : s.place i = .inside op p → m.result p = none →
      Step m i s (s.put i s.lock (m.step p s.obj).2 (.inside op (m.step p s.obj).1) [])
  | leave (op : ω) (p : π) (r : ρ) : s.place i = .inside op p → m.result p = some r →
      Step m i s (s.put i none s.obj .idle [(i, op, r)])

/-- A step of one thread leaves the others where they are. -/
theorem Step.place_of_ne (h : Step m i s t) {j : ι} (hj : j ≠ i) : t.place j = s.place j := by
  cases h with
  | call => exact s.put_of_ne hj _ _ _ _
  | acquire => exact s.put_of_ne hj _ _ _ _
  | work => exact s.put_of_ne hj _ _ _ _
  | leave => exact s.put_of_ne hj _ _ _ _

/-- What threads can come to that begin on the object `s`. -/
abbrev Reachable (m : Monitor σ ω π ρ) (s : σ) (t : State ι σ ω π ρ) : Prop :=
  ReflTransGen (fun u v => ∃ i, Step m i u v) (.start s) t

/-- A step of `i` when nobody else is inside. -/
theorem Exclusive.put (h : Exclusive m s₀ s) (hfree : s.lock = none ∨ s.lock = some i)
    {lock : Option ι} {obj end' : σ} {pl : Place ω π} {returned : List (ι × ω × ρ)}
    (hown : lock = none ∨ lock = some i) (hlock : lock = some i ↔ ∃ op p, pl = .inside op p)
    (hseq : Sequential m s₀ (s.history ++ returned) end') (hobj : lock = none → obj = end')
    (hleft : ∀ op p, pl = .inside op p →
      ∀ r u, Yields m p obj r u → Yields m (m.enter op) end' r u) :
    Exclusive m s₀ (s.put i lock obj pl returned) := by
  have hself := s.put_self i lock obj pl returned
  have hothers : ∀ j, j ≠ i → ∀ op p, (s.put i lock obj pl returned).place j ≠ .inside op p := by
    intro j hj op p hin
    rw [s.put_of_ne hj] at hin
    rcases hfree with hnone | hsome
    · exact nomatch (h.lock_eq hin).symm.trans hnone
    · exact hj (Option.some.inj ((h.lock_eq hin).symm.trans hsome))
  refine ⟨fun j => ?_, end', hseq, hobj, fun j op p hin => ?_⟩
  · by_cases hj : j = i
    · subst hj
      rw [hself]
      exact hlock
    · refine ⟨fun heq => ?_, fun ⟨op, p, hin⟩ => absurd hin (hothers j hj op p)⟩
      rcases hown with hnone | hsome
      · exact nomatch hnone.symm.trans heq
      · exact absurd (Option.some.inj (hsome.symm.trans heq)).symm hj
  · by_cases hj : j = i
    · subst hj
      rw [hself] at hin
      exact hleft op p hin
    · exact absurd hin (hothers j hj op p)

/-- A thread that begins to wait changes nothing for the others. -/
theorem Exclusive.call (h : Exclusive m s₀ s) (hidle : s.place i = .idle) (op : ω) :
    Exclusive m s₀ (s.put i s.lock s.obj (.waiting op) []) := by
  have hplace : ∀ j op' p, (s.put i s.lock s.obj (.waiting op) []).place j = .inside op' p ↔
      s.place j = .inside op' p := by
    intro j op' p
    by_cases hj : j = i
    · subst hj
      rw [s.put_self, hidle]
      exact ⟨(fun h => nomatch h), fun h => nomatch h⟩
    · rw [s.put_of_ne hj]
  obtain ⟨end', hseq, hobj, hleft⟩ := h.sequential
  refine ⟨fun j => ?_, end', ?_, hobj, fun j op' p hin => hleft j op' p ((hplace j op' p).mp hin)⟩
  · simp only [hplace]
    exact h.lock_iff j
  · rw [State.put, List.append_nil]
    exact hseq

theorem Exclusive.step (h : Exclusive m s₀ s) (hstep : Step m i s t) : Exclusive m s₀ t := by
  obtain ⟨end', hseq, hobj, hleft⟩ := h.sequential
  have hsame : Sequential m s₀ (s.history ++ []) end' := by
    rw [List.append_nil]
    exact hseq
  cases hstep with
  | call op hidle => exact h.call hidle op
  | acquire op hwait hfree =>
      refine h.put (.inl hfree) (.inr rfl) ⟨fun _ => ⟨op, _, rfl⟩, fun _ => rfl⟩ hsame
        (fun hnone => nomatch hnone) ?_
      rintro op' p ⟨⟩ r u hyields
      rwa [hobj hfree] at hyields
  | work op p hin hmore =>
      have hlock := h.lock_eq hin
      refine h.put (.inr hlock) (.inr hlock) ⟨fun _ => ⟨op, _, rfl⟩, fun _ => hlock⟩ hsame
        (fun hnone => nomatch hlock.symm.trans hnone) ?_
      rintro op' p' ⟨⟩ r u hyields
      exact hleft i op p hin r u (.step hmore hyields)
  | leave op p r hin hdone =>
      have hyields := hleft i op p hin r s.obj (.done hdone)
      refine h.put (.inr (h.lock_eq hin)) (.inl rfl)
        ⟨(fun hsome => nomatch hsome), fun ⟨_, _, heq⟩ => nomatch heq⟩ (.snoc hseq hyields)
        (fun _ => rfl) (fun _ _ heq => nomatch heq)

theorem Reachable.exclusive (h : Reachable m s₀ s) : Exclusive m s₀ s :=
  invariant (P := Exclusive m s₀) (fun _ _ hs ⟨_, hstep⟩ => hs.step hstep) h (.start s₀)

/-- Whatever the interleaving, the history is one of whole operations. -/
theorem Reachable.sequential (h : Reachable m s₀ s) :
    ∃ t, Sequential m s₀ s.history t ∧ (s.lock = none → s.obj = t) := by
  obtain ⟨t, hseq, hobj, -⟩ := h.exclusive.sequential
  exact ⟨t, hseq, hobj⟩

/-- Where some thread is in a call, one of them can go on. -/
theorem Exclusive.goes_on (h : Exclusive m s₀ s) (hi : s.place i ≠ .idle) :
    ∃ j t, s.place j ≠ .idle ∧ Step m j s t := by
  have hwork : ∀ j op p, s.place j = .inside op p → ∃ t, Step m j s t := by
    intro j op p hj
    rcases hres : m.result p with _ | r
    · exact ⟨_, .work op p hj hres⟩
    · exact ⟨_, .leave op p r hj hres⟩
  rcases hlock : s.lock with _ | j
  · rcases hplace : s.place i with _ | op | ⟨op, p⟩
    · exact absurd hplace hi
    · exact ⟨i, _, hi, .acquire op hplace hlock⟩
    · obtain ⟨t, ht⟩ := hwork i op p hplace
      exact ⟨i, t, hi, ht⟩
  · obtain ⟨op, p, hj⟩ := (h.lock_iff j).mp hlock
    obtain ⟨t, ht⟩ := hwork j op p hj
    exact ⟨j, t, (fun hidle => nomatch hj.symm.trans hidle), ht⟩

end Steps

end Monitor
