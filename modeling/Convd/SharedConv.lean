/-
# `Convd.SharedConv` — threads that share a descriptor

`convd_conv_text` takes the write lock of the descriptor, resets iconv, converts and lets
the lock go, at each of its exits.  Any number of threads do so on one `convd_t`, a list
of calls each, and one atomic step at a time of whichever thread:

    acquire    idle      →  locked            waits until the lock is free
    reset      locked    →  looping, leaving  the all-NULL call
    iconv      looping   →  looping, leaving  one call with an input
    release    leaving   →  idle              the call returns

Failed calls leave iconv in whatever state it stopped in.  `Serial` is the invariant: only
who has the lock is inside, and what it got so far is what it would have got alone.
-/
import Convd.ConvFlush
import Convd.Lib.Steps
import Mathlib.Algebra.BigOperators.Group.Finset.Basic
import Mathlib.Algebra.Order.BigOperators.Group.Finset

namespace Convd

open Function Relation Steps

variable {σ ι : Type}

/-! ## Calls -/

/-- A call of `convd_conv_text`: the input, and the size of the output buffer. -/
structure ConvCall where
  input : List UInt8
  room : Nat

/-- What a call comes to: the size returned, none for `CONVD_ERR_ICONV`, and what it wrote
to the output buffer. -/
structure ConvOutcome where
  ret : Option Nat
  written : List UInt8

/-- The call alone, on a descriptor just opened. -/
def ConvCall.alone (ic : Iconv σ) (opened : σ) (c : ConvCall) : ConvOutcome :=
  ⟨(convdConvText ic opened c.input c.room Sys.init).1.map List.length,
    convdConvTextWritten ic opened c.input c.room⟩

/-! ## Steps -/

/-- Where a thread stands in `convd_conv_text`. -/
inductive ConvPc where
  | idle
  | locked (c : ConvCall)
  | looping (c : ConvCall) (input : List UInt8) (room : Nat) (written : List UInt8)
  | leaving (c : ConvCall) (o : ConvOutcome)

/-- A thread: the calls it has yet to make, and those that returned. -/
structure ConvThread where
  todo : List ConvCall
  pc : ConvPc
  returned : List (ConvCall × ConvOutcome)

/-- The descriptor, that is the lock and the state of iconv, and the threads. -/
structure SharedConv (ι σ : Type) where
  lock : Option ι
  cd : σ
  threads : ι → ConvThread

/-- `iconv(cvd->cd, NULL, NULL, NULL, NULL)` and the test of its answer. -/
def resetStep (ic : Iconv σ) (cd : σ) (c : ConvCall) : ConvPc × σ :=
  match ic.reset cd with
  | none => (.leaving c ⟨none, []⟩, cd)
  | some cd => (.looping c c.input c.room [], cd)

/-- One turn of the `for (;;)`. -/
def iconvStep (ic : Iconv σ) (cd : σ) (c : ConvCall) (input : List UInt8) (room : Nat)
    (written : List UInt8) : ConvPc × σ :=
  let r := ic.conv cd input room
  let written := written ++ r.out
  let left := room - r.out.length
  if r.ok then
    if input.length - r.consumed = 0 then (.leaving c ⟨some (c.room - left), written⟩, r.next)
    else (.looping c (input.drop r.consumed) left written, r.next)
  else (.leaving c ⟨none, written⟩, r.next)

section Steps

variable [DecidableEq ι]

/-- The lock, iconv and one thread change. -/
def SharedConv.put (s : SharedConv ι σ) (i : ι) (lock : Option ι) (cd : σ) (th : ConvThread) :
    SharedConv ι σ :=
  ⟨lock, cd, update s.threads i th⟩

theorem SharedConv.put_self (s : SharedConv ι σ) (i : ι) (lock : Option ι) (cd : σ)
    (th : ConvThread) : (s.put i lock cd th).threads i = th := by
  show update s.threads i th i = th
  rw [update_self]

theorem SharedConv.put_of_ne (s : SharedConv ι σ) {i j : ι} (h : j ≠ i) (lock : Option ι) (cd : σ)
    (th : ConvThread) : (s.put i lock cd th).threads j = s.threads j := by
  show update s.threads i th j = s.threads j
  rw [update_of_ne h]

/-- One atomic step, of whichever thread. -/
inductive ConvStep (ic : Iconv σ) (s : SharedConv ι σ) : SharedConv ι σ → Prop where
  | acquire (i : ι) (c : ConvCall) (cs : List ConvCall) :
      (s.threads i).pc = .idle → (s.threads i).todo = c :: cs → s.lock = none →
      ConvStep ic s (s.put i (some i) s.cd { s.threads i with todo := cs, pc := .locked c })
  | reset (i : ι) (c : ConvCall) : (s.threads i).pc = .locked c →
      ConvStep ic s (s.put i s.lock (resetStep ic s.cd c).2
        { s.threads i with pc := (resetStep ic s.cd c).1 })
  | iconv (i : ι) (c : ConvCall) (input : List UInt8) (room : Nat) (written : List UInt8) :
      (s.threads i).pc = .looping c input room written →
      ConvStep ic s (s.put i s.lock (iconvStep ic s.cd c input room written).2
        { s.threads i with pc := (iconvStep ic s.cd c input room written).1 })
  | release (i : ι) (c : ConvCall) (o : ConvOutcome) : (s.threads i).pc = .leaving c o →
      ConvStep ic s (s.put i none s.cd
        { s.threads i with pc := .idle, returned := (s.threads i).returned ++ [(c, o)] })

end Steps

/-- Nobody has called yet. -/
def SharedConv.start (cd : σ) (calls : ι → List ConvCall) : SharedConv ι σ :=
  ⟨none, cd, fun i => ⟨calls i, .idle, []⟩⟩

/-! ## The invariant -/

/-- The call a thread is in. -/
def ConvPc.current : ConvPc → List ConvCall
  | .idle => []
  | .locked c | .looping c _ _ _ | .leaving c _ => [c]

/-- What the thread has is what it would have alone. -/
def ConvPc.AsAlone (ic : Iconv σ) (opened cd : σ) : ConvPc → Prop
  | .idle | .locked _ => True
  | .looping c input room written =>
      input = c.input ∧ room = c.room ∧ written = [] ∧ ic.reset opened = some cd
  | .leaving c o => o = c.alone ic opened

/-- Only who has the lock is inside, every call stands as it would alone, and none is lost. -/
structure Serial (ic : Iconv σ) (opened : σ) (calls : ι → List ConvCall) (s : SharedConv ι σ) :
    Prop where
  lock_iff : ∀ i, s.lock = some i ↔ (s.threads i).pc ≠ .idle
  asAlone : ∀ i, (s.threads i).pc.AsAlone ic opened s.cd
  calls_eq : ∀ i, (s.threads i).returned.map Prod.fst ++ (s.threads i).pc.current
    ++ (s.threads i).todo = calls i
  returned_eq : ∀ i, ∀ r ∈ (s.threads i).returned, r.2 = r.1.alone ic opened

variable {ic : Iconv σ} {opened : σ} {calls : ι → List ConvCall} {s t : SharedConv ι σ} {i : ι}

theorem Serial.start (cd : σ) : Serial ic opened calls (.start cd calls) where
  lock_iff _ := ⟨(fun h => nomatch h), fun h => absurd rfl h⟩
  asAlone _ := trivial
  calls_eq _ := rfl
  returned_eq _ _ h := nomatch h

/-- Whoever is not idle has the lock. -/
theorem Serial.lock_eq (h : Serial ic opened calls s) {pc : ConvPc} (hpc : (s.threads i).pc = pc)
    (hne : pc ≠ .idle) : s.lock = some i :=
  (h.lock_iff i).mpr (hpc.symm ▸ hne)

/-- What a call alone comes to, when it gets past the reset. -/
theorem alone_of_reset {cd : σ} (c : ConvCall) (hreset : ic.reset opened = some cd) :
    c.alone ic opened = ⟨if (ic.conv cd c.input c.room).ok then
      some (ic.conv cd c.input c.room).out.length else none, (ic.conv cd c.input c.room).out⟩ := by
  have htext : ic.text opened c.input c.room = if (ic.conv cd c.input c.room).ok then
      some (ic.conv cd c.input c.room).out else none := by
    rw [Iconv.text, hreset]
  rw [ConvCall.alone, convdConvTextWritten_eq ic c.input c.room hreset]
  rcases convdConvText_cases ic opened c.input c.room Sys.init with
    ⟨out, cd', t, hout, hconv⟩ | ⟨cd', t, evs, hnone, -, hconv⟩
  · rw [hconv]
    rw [htext] at hout
    split at hout
    · rename_i hok
      rw [if_pos hok, ← Option.some.inj hout]
      rfl
    · cases hout
  · rw [hconv]
    rw [htext] at hnone
    split at hnone
    · cases hnone
    · rename_i hfail
      rw [if_neg hfail]
      rfl

theorem alone_of_reset_none (c : ConvCall) (hreset : ic.reset opened = none) :
    c.alone ic opened = ⟨none, []⟩ := by
  simp [ConvCall.alone, convdConvText, convdConvTextWritten, hreset]

/-- After the reset, which forgets what state iconv was in. -/
theorem asAlone_resetStep (hreset : ∀ cd, ic.reset cd = ic.reset opened) (cd : σ) (c : ConvCall) :
    (resetStep ic cd c).1.AsAlone ic opened (resetStep ic cd c).2 ∧
      (resetStep ic cd c).1.current = [c] ∧ (resetStep ic cd c).1 ≠ .idle := by
  rcases hres : ic.reset cd with _ | cd'
  · have hstep : resetStep ic cd c = (.leaving c ⟨none, []⟩, cd) := by simp only [resetStep, hres]
    rw [hstep]
    exact ⟨(alone_of_reset_none c ((hreset cd).symm.trans hres)).symm, rfl, ConvPc.noConfusion⟩
  · have hstep : resetStep ic cd c = (.looping c c.input c.room [], cd') := by
      simp only [resetStep, hres]
    rw [hstep]
    exact ⟨⟨rfl, rfl, rfl, (hreset cd).symm.trans hres⟩, rfl, ConvPc.noConfusion⟩

/-- One turn of the loop is the last: what is left of the input is nothing. -/
theorem iconvStep_eq (cd : σ) (c : ConvCall) (input : List UInt8) (room : Nat)
    (written : List UInt8) : iconvStep ic cd c input room written =
      (.leaving c ⟨if (ic.conv cd input room).ok then
          some (c.room - (room - (ic.conv cd input room).out.length)) else none,
        written ++ (ic.conv cd input room).out⟩, (ic.conv cd input room).next) := by
  by_cases hok : (ic.conv cd input room).ok
  · have hall : input.length - (ic.conv cd input room).consumed = 0 := by
      rw [ic.consumed_eq _ _ _ hok, Nat.sub_self]
    simp only [iconvStep, if_pos hok, if_pos hall]
  · simp only [iconvStep, if_neg hok]

theorem asAlone_iconvStep {cd : σ} (c : ConvCall) (hreset : ic.reset opened = some cd) :
    (iconvStep ic cd c c.input c.room []).1.AsAlone ic opened
      (iconvStep ic cd c c.input c.room []).2 := by
  have hle := ic.out_le cd c.input c.room
  have hlen : c.room - (c.room - (ic.conv cd c.input c.room).out.length)
      = (ic.conv cd c.input c.room).out.length := by omega
  rw [iconvStep_eq, hlen, List.nil_append]
  exact (alone_of_reset c hreset).symm

variable [DecidableEq ι]

/-- A step of `i` when nobody else is inside: what it changes is `i`'s alone. -/
theorem Serial.put (h : Serial ic opened calls s) (hfree : s.lock = none ∨ s.lock = some i)
    {lock : Option ι} {cd : σ} {th : ConvThread} (hown : lock = none ∨ lock = some i)
    (hlock : lock = some i ↔ th.pc ≠ .idle) (hpc : th.pc.AsAlone ic opened cd)
    (hcalls : th.returned.map Prod.fst ++ th.pc.current ++ th.todo = calls i)
    (hreturned : ∀ r ∈ th.returned, r.2 = r.1.alone ic opened) :
    Serial ic opened calls (s.put i lock cd th) := by
  have hself := s.put_self i lock cd th
  have hother : ∀ j, j ≠ i → (s.put i lock cd th).threads j = s.threads j :=
    fun j hj => s.put_of_ne hj lock cd th
  have hidle : ∀ j, j ≠ i → (s.threads j).pc = .idle := by
    intro j hj
    by_contra hne
    rcases hfree with hnone | hsome
    · exact nomatch hnone.symm.trans ((h.lock_iff j).mpr hne)
    · exact hj (Option.some.inj (((h.lock_iff j).mpr hne).symm.trans hsome))
  refine ⟨fun j => ?_, fun j => ?_, fun j => ?_, fun j => ?_⟩ <;> by_cases hj : j = i
  · subst hj
    rw [hself]
    exact hlock
  · rw [hother j hj]
    refine ⟨fun hj' => ?_, fun hne => absurd (hidle j hj) hne⟩
    rcases hown with hnone | hsome
    · exact nomatch hnone.symm.trans hj'
    · exact absurd (Option.some.inj (hj'.symm.trans hsome)) hj
  · subst hj
    rw [hself]
    exact hpc
  · rw [hother j hj, hidle j hj]
    trivial
  · subst hj
    rw [hself]
    exact hcalls
  · rw [hother j hj]
    exact h.calls_eq j
  · subst hj
    rw [hself]
    exact hreturned
  · rw [hother j hj]
    exact h.returned_eq j

/-! ## Every interleaving -/

theorem Serial.step (hreset : ∀ cd, ic.reset cd = ic.reset opened) (h : Serial ic opened calls s)
    (hstep : ConvStep ic s t) : Serial ic opened calls t := by
  cases hstep with
  | acquire i c cs hidle htodo hfree =>
      have hcalls := h.calls_eq i
      rw [hidle, htodo, List.append_assoc] at hcalls
      refine h.put (.inl hfree) (.inr rfl) ⟨fun _ => ConvPc.noConfusion, fun _ => rfl⟩ trivial ?_
        (h.returned_eq i)
      rw [List.append_assoc]
      exact hcalls
  | reset i c hpc =>
      have hlock := h.lock_eq hpc ConvPc.noConfusion
      have hcalls := h.calls_eq i
      rw [hpc] at hcalls
      obtain ⟨halone, hcurrent, hne⟩ := asAlone_resetStep hreset s.cd c
      exact h.put (.inr hlock) (.inr hlock) ⟨fun _ => hne, fun _ => hlock⟩ halone
        (by rw [hcurrent]; exact hcalls) (h.returned_eq i)
  | iconv i c input room written hpc =>
      have hlock := h.lock_eq hpc ConvPc.noConfusion
      have hcalls := h.calls_eq i
      have hat := h.asAlone i
      rw [hpc] at hcalls hat
      obtain ⟨rfl, rfl, rfl, hcd⟩ := hat
      have halone := asAlone_iconvStep c hcd
      rw [iconvStep_eq] at halone ⊢
      exact h.put (.inr hlock) (.inr hlock) ⟨fun _ => ConvPc.noConfusion, fun _ => hlock⟩ halone
        hcalls (h.returned_eq i)
  | release i c o hpc =>
      have hlock := h.lock_eq hpc ConvPc.noConfusion
      have hcalls := h.calls_eq i
      have hat := h.asAlone i
      rw [hpc] at hcalls hat
      refine h.put (.inr hlock) (.inl rfl) ⟨(fun h => nomatch h), fun h => absurd rfl h⟩ trivial
        ?_ ?_
      · rw [List.map_append, ← hcalls]
        simp [ConvPc.current]
      · intro r hr
        rcases List.mem_append.mp hr with hr | hr
        · exact h.returned_eq i r hr
        · rw [List.mem_singleton.mp hr]
          exact hat

/-- A call that returns lets go of the lock. -/
theorem ConvStep.lock_of_returned (hstep : ConvStep ic s t)
    (hreturned : (t.threads i).returned ≠ (s.threads i).returned) : t.lock = none := by
  have hframe : ∀ {j : ι} {lock : Option ι} {cd : σ} {th : ConvThread},
      th.returned = (s.threads j).returned →
      ((s.put j lock cd th).threads i).returned = (s.threads i).returned := by
    intro j lock cd th hth
    by_cases hij : i = j
    · subst hij
      rw [s.put_self, hth]
    · rw [s.put_of_ne hij]
  cases hstep with
  | acquire j c cs => exact (hreturned (hframe rfl)).elim
  | reset j c => exact (hreturned (hframe rfl)).elim
  | iconv j c input room written => exact (hreturned (hframe rfl)).elim
  | release j c o => rfl

/-- Somebody can go on, unless every call has returned. -/
theorem Serial.returned_of_stuck (h : Serial ic opened calls s) (hstuck : ∀ t, ¬ ConvStep ic s t) :
    s.lock = none ∧ ∀ i, (s.threads i).returned.map Prod.fst = calls i := by
  have hidle : ∀ i, (s.threads i).pc = .idle := by
    intro i
    rcases hpc : (s.threads i).pc with _ | c | ⟨c, input, room, written⟩ | ⟨c, o⟩
    · rfl
    · exact absurd (.reset i c hpc) (hstuck _)
    · exact absurd (.iconv i c input room written hpc) (hstuck _)
    · exact absurd (.release i c o hpc) (hstuck _)
  have hfree : s.lock = none := by
    rcases hlock : s.lock with _ | i
    · rfl
    · exact absurd (hidle i) ((h.lock_iff i).mp hlock)
  refine ⟨hfree, fun i => ?_⟩
  have hcalls := h.calls_eq i
  rcases htodo : (s.threads i).todo with _ | ⟨c, cs⟩
  · rw [htodo, hidle i] at hcalls
    simpa [ConvPc.current] using hcalls
  · exact absurd (.acquire i c cs (hidle i) htodo hfree) (hstuck _)

/-- Calls of `convd_conv_text` that share a descriptor return, and write, what they would
alone on a descriptor just opened, whatever the order of their steps; each lets go of the
lock, and a call that has not returned keeps nobody from going on. -/
theorem convdConvText_serializable (hreset : ∀ cd, ic.reset cd = ic.reset opened) {cd : σ}
    (hrun : ReflTransGen (ConvStep ic) (.start cd calls) s) :
    (∀ i, ∀ r ∈ (s.threads i).returned, r.2 = r.1.alone ic opened) ∧
      (∀ i, (s.threads i).returned.map Prod.fst <+: calls i) ∧
      (∀ i t, ConvStep ic s t → (t.threads i).returned ≠ (s.threads i).returned →
        t.lock = none) ∧
      ((∀ t, ¬ ConvStep ic s t) →
        s.lock = none ∧ ∀ i, (s.threads i).returned.map Prod.fst = calls i) := by
  have hs : Serial ic opened calls s :=
    invariant (P := Serial ic opened calls) (fun _ _ h hstep => h.step hreset hstep) hrun
      (.start cd)
  refine ⟨hs.returned_eq, fun i => ?_, fun i t hstep => hstep.lock_of_returned,
    hs.returned_of_stuck⟩
  rw [← hs.calls_eq i, List.append_assoc]
  exact List.prefix_append _ _

/-- One of two threads leaves the converter shifted, and then the other makes the same call. -/
theorem convdConvText_serializable_two :
    ∃ s t : SharedConv Bool Bool, ReflTransGen (ConvStep (.ofTransducer shiftOut))
        (.start false fun _ => [⟨[0x61, 0xE9], 8⟩]) s ∧
      ((s.threads true).returned.length = 1 ∧ s.cd = true) ∧
      ReflTransGen (ConvStep (.ofTransducer shiftOut)) s t ∧
      ((t.threads true).returned.length = 1 ∧ (t.threads false).returned.length = 1) ∧
      (∀ i, ∀ r ∈ (t.threads i).returned, r.2 = r.1.alone (.ofTransducer shiftOut) false) ∧
      (∀ i, (t.threads i).returned.map Prod.fst <+: [⟨[0x61, 0xE9], 8⟩]) ∧
      (∀ i u, ConvStep (.ofTransducer shiftOut) t u →
        (u.threads i).returned ≠ (t.threads i).returned → u.lock = none) ∧
      ((∀ u, ¬ ConvStep (.ofTransducer shiftOut) t u) →
        t.lock = none ∧ ∀ i, (t.threads i).returned.map Prod.fst = [⟨[0x61, 0xE9], 8⟩]) := by
  obtain ⟨s, t, hfirst, hshifted, hsecond, hreturned⟩ : ∃ s t : SharedConv Bool Bool,
      ReflTransGen (ConvStep (.ofTransducer shiftOut))
        (.start false fun _ => [⟨[0x61, 0xE9], 8⟩]) s ∧
      ((s.threads true).returned.length = 1 ∧ s.cd = true) ∧
      ReflTransGen (ConvStep (.ofTransducer shiftOut)) s t ∧
      (t.threads true).returned.length = 1 ∧ (t.threads false).returned.length = 1 :=
    ⟨_, _, (((ReflTransGen.refl.tail (.acquire true _ _ rfl rfl rfl)).tail
      (.reset true _ rfl)).tail (.iconv true _ _ _ _ rfl)).tail (.release true _ _ rfl),
      ⟨rfl, rfl⟩, (((ReflTransGen.refl.tail (.acquire false _ _ rfl rfl rfl)).tail
      (.reset false _ rfl)).tail (.iconv false _ _ _ _ rfl)).tail (.release false _ _ rfl),
      rfl, rfl⟩
  exact ⟨s, t, hfirst, hshifted, hsecond, hreturned,
    convdConvText_serializable (fun _ => rfl) (hfirst.trans hsecond)⟩

/-! ## Every call returns -/

/-- How many steps a thread has before it. -/
def ConvPc.rank : ConvPc → Nat
  | .idle => 0
  | .leaving _ _ => 1
  | .looping _ _ _ _ => 2
  | .locked _ => 3

def ConvThread.rank (th : ConvThread) : Nat := 4 * th.todo.length + th.pc.rank

theorem rank_resetStep (cd : σ) (c : ConvCall) : (resetStep ic cd c).1.rank ≤ 2 := by
  rw [resetStep]
  split
  · exact Nat.le_succ 1
  · exact Nat.le_refl 2

/-- A step makes what lies before the threads less. -/
theorem ConvStep.rank_lt [Fintype ι] (hstep : ConvStep ic s t) :
    ∑ i, (t.threads i).rank < ∑ i, (s.threads i).rank := by
  have hput : ∀ {i : ι} {lock : Option ι} {cd : σ} {th : ConvThread},
      th.rank < (s.threads i).rank →
      ∑ j, ((s.put i lock cd th).threads j).rank < ∑ j, (s.threads j).rank := by
    intro i lock cd th hlt
    apply Finset.sum_lt_sum
    · intro j _
      by_cases hj : j = i
      · subst hj
        rw [s.put_self]
        exact Nat.le_of_lt hlt
      · rw [s.put_of_ne hj]
    · exact ⟨i, Finset.mem_univ i, by rw [s.put_self]; exact hlt⟩
  cases hstep with
  | acquire i c cs hidle htodo _ =>
      apply hput
      rw [ConvThread.rank, ConvThread.rank, hidle, htodo, List.length_cons]
      show 4 * cs.length + 3 < 4 * (cs.length + 1) + 0
      omega
  | reset i c hpc =>
      apply hput
      rw [ConvThread.rank, ConvThread.rank, hpc]
      exact Nat.add_lt_add_left (Nat.lt_succ_of_le (rank_resetStep s.cd c)) _
  | iconv i c input room written hpc =>
      apply hput
      rw [ConvThread.rank, ConvThread.rank, hpc, iconvStep_eq]
      exact Nat.add_lt_add_left (Nat.lt_succ_self 1) _
  | release i c o hpc =>
      apply hput
      rw [ConvThread.rank, ConvThread.rank, hpc]
      exact Nat.add_lt_add_left Nat.zero_lt_one _

/-- From wherever finitely many threads are, their calls can all return. -/
theorem Serial.all_return [Fintype ι] (hreset : ∀ cd, ic.reset cd = ic.reset opened)
    (h : Serial ic opened calls s) : ∃ t, ReflTransGen (ConvStep ic) s t ∧ t.lock = none ∧
      ∀ i, (t.threads i).returned.map Prod.fst = calls i := by
  obtain ⟨t, hrun, hstuck⟩ := exists_stuck (fun s : SharedConv ι σ => ∑ i, (s.threads i).rank)
    (fun _ _ => ConvStep.rank_lt) s
  have ht : Serial ic opened calls t :=
    invariant (P := Serial ic opened calls) (fun _ _ h hstep => h.step hreset hstep) hrun h
  exact ⟨t, hrun, ht.returned_of_stuck hstuck⟩

end Convd
