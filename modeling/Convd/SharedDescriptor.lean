/-
# `Convd.SharedDescriptor` — the life of a descriptor that threads share

Whoever holds a reference to a descriptor may retain it for somebody, convert through it,
configure its converter, and give the reference back; a thread does one of these at a time.
Conversions and configurations go through the lock of the object (`descMonitor`); the lock and
iconv's state are in the object, or end with it.

    convd_conv_text   lock, reset, conversions, unlock      `Convd.SharedConv`
    convd_config      lock, iconvctl, unlock
    convd_retain      one atomic addition                   `Convd.RefcObject`
    convd_release     one atomic subtraction, and the end of the object if it was the last

Neither part knows of the other: the count is not looked at under the lock, and the lock is not
taken to count.  That no thread is ever inside an object that was given up is in how both are used
(`Live`), and that calls are atomic, each under the settings in force when it is made, in the lock.
-/
import Convd.Lib.Monitor
import Convd.RefcObject
import Convd.SharedConv

namespace Convd

open Function Relation Steps Monitor

variable {σ γ κ ι : Type}

/-! ## Calls through the lock -/

/-- A call of `convd_conv_text`, or of `convd_config` with a request. -/
inductive DescOp (γ : Type) where
  | convText (c : ConvCall)
  | config (request : γ)

/-- Where it stands, the lock being held. -/
inductive DescPc (γ : Type) where
  | conv (pc : ConvPc)
  | ctl (request : γ)
  | ctlDone (ret : Int)

/-- What it returned. -/
inductive DescResult where
  | convText (o : ConvOutcome)
  | config (ret : Int)

/-- The two calls, step by step.  `ctl` is `iconvctl`, which changes the settings of the
converter. -/
def descMonitor (ic : Iconv σ) (ctl : σ → γ → Int × σ) :
    Monitor σ (DescOp γ) (DescPc γ) DescResult where
  enter
    | .convText c => .conv (.locked c)
    | .config request => .ctl request
  step
    | .conv (.locked c), cd => (.conv (resetStep ic cd c).1, (resetStep ic cd c).2)
    | .conv (.looping c input room written), cd =>
        (.conv (iconvStep ic cd c input room written).1, (iconvStep ic cd c input room written).2)
    | .ctl request, cd => (.ctlDone (ctl cd request).1, (ctl cd request).2)
    | pc, cd => (pc, cd)
  result
    | .conv (.leaving _ o) => some (.convText o)
    | .ctlDone ret => some (.config ret)
    | _ => none

/-! ## Settings -/

/-- What `iconvctl` sets, and what it decides: a converter that was reset depends on its
settings alone, and neither the reset nor a conversion changes them. -/
structure Settings (ic : Iconv σ) (ctl : σ → γ → Int × σ) (κ : Type) where
  setting : σ → κ
  opened : κ → σ
  setting_opened : ∀ k, setting (opened k) = k
  reset_eq : ∀ cd cd', setting cd = setting cd' → ic.reset cd = ic.reset cd'
  setting_reset : ∀ cd, ∀ cd' ∈ ic.reset cd, setting cd' = setting cd
  setting_conv : ∀ cd input room, setting (ic.conv cd input room).next = setting cd
  ctl_ret_eq : ∀ cd cd' request, setting cd = setting cd' →
    (ctl cd request).1 = (ctl cd' request).1
  setting_ctl_eq : ∀ cd cd' request, setting cd = setting cd' →
    setting (ctl cd request).2 = setting (ctl cd' request).2

variable {ic : Iconv σ} {ctl : σ → γ → Int × σ}

/-- The calls as they would be if they took no time: a conversion is one on a descriptor that was
just opened with the settings there are. -/
def Settings.apply (S : Settings ic ctl κ) (k : κ) : DescOp γ → DescResult × κ
  | .convText c => (.convText (c.alone ic (S.opened k)), k)
  | .config request =>
      (.config (ctl (S.opened k) request).1, S.setting (ctl (S.opened k) request).2)

/-- A conversion that is not interrupted. -/
theorem yields_convText (S : Settings ic ctl κ) {c : ConvCall} {cd cd' : σ} {r : DescResult}
    (h : Yields (descMonitor ic ctl) (.conv (.locked c)) cd r cd') :
    r = .convText (c.alone ic (S.opened (S.setting cd))) ∧ S.setting cd' = S.setting cd := by
  have hreset : ic.reset (S.opened (S.setting cd)) = ic.reset cd :=
    S.reset_eq _ _ (S.setting_opened _)
  have hrest := h.of_none rfl
  rcases hcd : ic.reset cd with _ | cd₀
  · have hstep : resetStep ic cd c = (.leaving c ⟨none, []⟩, cd) := by simp only [resetStep, hcd]
    simp only [descMonitor, hstep] at hrest
    obtain ⟨rfl, rfl⟩ := hrest.of_result rfl
    rw [alone_of_reset_none c (hreset.trans hcd)]
    exact ⟨rfl, rfl⟩
  · have hstep : resetStep ic cd c = (.looping c c.input c.room [], cd₀) := by
      simp only [resetStep, hcd]
    simp only [descMonitor, hstep] at hrest
    have hlast := hrest.of_none rfl
    have halone := asAlone_iconvStep c (hreset.trans hcd)
    simp only [iconvStep_eq] at hlast halone
    obtain ⟨rfl, rfl⟩ := hlast.of_result rfl
    refine ⟨congrArg DescResult.convText halone, ?_⟩
    rw [S.setting_conv, S.setting_reset cd cd₀ hcd]

/-- Done without interruption, a call does what it would if it took no time. -/
theorem Settings.apply_of_yields (S : Settings ic ctl κ) (op : DescOp γ) (cd : σ) (r : DescResult)
    (cd' : σ) (h : Yields (descMonitor ic ctl) ((descMonitor ic ctl).enter op) cd r cd') :
    S.apply (S.setting cd) op = (r, S.setting cd') := by
  have hopened := S.setting_opened (S.setting cd)
  cases op with
  | convText c =>
      obtain ⟨rfl, hset⟩ := yields_convText S h
      rw [hset]
      rfl
  | config request =>
      have hrest := h.of_none rfl
      obtain ⟨rfl, rfl⟩ := hrest.of_result rfl
      rw [Settings.apply, S.ctl_ret_eq _ _ request hopened, S.setting_ctl_eq _ _ request hopened]
      rfl

/-! ## References -/

/-- Retaining takes no reference from anybody. -/
theorem mem_held_retain {s : RefcState ι} {addr : Nat} {i j : ι} (h : i ∈ s.held) :
    i ∈ (s.retain addr j).held := by
  simp only [RefcState.retain]
  split
  · exact Multiset.mem_cons_of_mem h
  · exact h

/-- The object with its references, and the calls through its lock. -/
structure SharedDescriptor (ι σ γ : Type) where
  refs : RefcState ι
  calls : Monitor.State ι σ (DescOp γ) (DescPc γ) DescResult

variable [DecidableEq ι]

/-- A descriptor that `convd_create` has just returned to `i`. -/
def SharedDescriptor.new (i : ι) (cd : σ) : SharedDescriptor ι σ γ :=
  ⟨.new true i, .start cd⟩

/-- One atomic step of a thread.  It begins nothing without a reference of its own, and does one
thing at a time. -/
inductive DescStep (ic : Iconv σ) (ctl : σ → γ → Int × σ) (addr : Nat)
    (s : SharedDescriptor ι σ γ) : SharedDescriptor ι σ γ → Prop where
  | retain (i j : ι) : s.calls.place i = .idle → i ∈ s.refs.held →
      s.refs.held.card + 1 < 2 ^ 31 → DescStep ic ctl addr s { s with refs := s.refs.retain addr j }
  | release (i : ι) : s.calls.place i = .idle → i ∈ s.refs.held →
      DescStep ic ctl addr s { s with refs := s.refs.release addr i }
  | call (i : ι) (calls : Monitor.State ι σ (DescOp γ) (DescPc γ) DescResult) :
      (s.calls.place i = .idle → i ∈ s.refs.held) → Step (descMonitor ic ctl) i s.calls calls →
      DescStep ic ctl addr s { s with calls := calls }

/-- The count is right, and whoever is in a call has a reference. -/
structure Live (s : SharedDescriptor ι σ γ) : Prop where
  counted : Counted true s.refs
  holds : ∀ i, s.calls.place i ≠ .idle → i ∈ s.refs.held

variable {addr : Nat} {s t : SharedDescriptor ι σ γ} {i₀ : ι} {cd : σ}

theorem Live.new (i : ι) (cd : σ) : Live (.new i cd : SharedDescriptor ι σ γ) where
  counted := .new i
  holds _ h := absurd rfl h

theorem Live.step (h : Live s) (hstep : DescStep ic ctl addr s t) : Live t := by
  cases hstep with
  | retain i j _ hi hroom =>
      exact ⟨h.counted.retain j hi hroom, fun k hk => mem_held_retain (h.holds k hk)⟩
  | release i hidle hi =>
      refine ⟨h.counted.release hi, fun k hk => ?_⟩
      have hne : k ≠ i := by
        rintro rfl
        exact hk hidle
      exact (Multiset.mem_erase_of_ne hne).mpr (h.holds k hk)
  | call i calls hhas hcall =>
      refine ⟨h.counted, fun k hk => ?_⟩
      by_cases hki : k = i
      · subst hki
        by_cases hidle : s.calls.place k = .idle
        · exact hhas hidle
        · exact h.holds k hidle
      · refine h.holds k ?_
        rwa [← hcall.place_of_ne hki]

/-- The thread that makes a step has a reference. -/
theorem Live.log_eq_nil (h : Live s) (hstep : DescStep ic ctl addr s t) : s.refs.obj.log = [] := by
  cases hstep with
  | retain i j _ hi _ => exact h.counted.log_eq_nil hi
  | release i _ hi => exact h.counted.log_eq_nil hi
  | call i calls hhas _ =>
      by_cases hidle : s.calls.place i = .idle
      · exact h.counted.log_eq_nil (hhas hidle)
      · exact h.counted.log_eq_nil (h.holds i hidle)

/-! ## Every run -/

/-- Copies the bytes below 80; the others are refused, or discarded if that was asked for. -/
def below80 : Iconv Bool where
  reset := some
  conv discard input room :=
    if (discard || input.all (· < 0x80)) ∧ input.length ≤ room then
      ⟨true, input.length, input.filter (· < 0x80), discard⟩
    else ⟨false, 0, [], discard⟩
  consumed_eq discard input room h := by
    split at h
    · rename_i hfits
      rw [if_pos hfits]
    · exact nomatch h
  out_le discard input room := by
    split
    · rename_i hfits
      exact (List.length_filter_le _ _).trans hfits.2
    · exact Nat.zero_le _

/-- `ICONV_SET_DISCARD_ILSEQ` -/
def setDiscard (_ : Bool) (discard : Bool) : Int × Bool := (0, discard)

def discardSettings : Settings below80 setDiscard Bool where
  setting := id
  opened := id
  setting_opened _ := rfl
  reset_eq _ _ h := congrArg some h
  setting_reset _ _ h := (Option.some.inj h).symm
  setting_conv cd input room := by
    simp only [below80]
    split <;> rfl
  ctl_ret_eq _ _ _ _ := rfl
  setting_ctl_eq _ _ _ _ := rfl

/-- A run of two threads with a reference each: where one configures and the other waits to
convert, and where both are done and have let go. -/
theorem exists_run_two : ∃ s t : SharedDescriptor Bool Bool Bool,
    ReflTransGen (DescStep below80 setDiscard 8) (.new true false) s ∧
      (s.refs.held = {false, true} ∧ s.calls.place true = .inside (.config true) (.ctl true) ∧
        s.calls.place false = .waiting (.convText ⟨[0x61, 0xE9], 8⟩)) ∧
      ReflTransGen (DescStep below80 setDiscard 8) s t ∧
      t.calls.history.length = 2 ∧ t.refs.held = 0 :=
  ⟨_, _, (((ReflTransGen.refl.tail (.retain true false rfl (by decide) (by decide))).tail
    (.call false _ (fun _ => by decide) (.call (.convText ⟨[0x61, 0xE9], 8⟩) rfl))).tail
    (.call true _ (fun _ => by decide) (.call (.config true) rfl))).tail
    (.call true _ (fun h => nomatch h) (.acquire _ rfl rfl)), ⟨by decide, rfl, rfl⟩,
    (((((((ReflTransGen.refl.tail
    (.call true _ (fun h => nomatch h) (.work _ _ rfl rfl))).tail
    (.call true _ (fun h => nomatch h) (.leave _ _ _ rfl rfl))).tail
    (.call false _ (fun h => nomatch h) (.acquire _ rfl rfl))).tail
    (.call false _ (fun h => nomatch h) (.work _ _ rfl rfl))).tail
    (.call false _ (fun h => nomatch h) (.work _ _ rfl rfl))).tail
    (.call false _ (fun h => nomatch h) (.leave _ _ _ rfl rfl))).tail
    (.release true rfl (by decide))).tail (.release false rfl (by decide)), rfl, rfl⟩

theorem live_of_run (hrun : ReflTransGen (DescStep ic ctl addr) (.new i₀ cd) s) : Live s :=
  invariant (P := Live) (fun _ _ h hstep => h.step hstep) hrun (.new i₀ cd)

/-- The calls of a run are a run of the calls. -/
theorem reachable_of_run (hrun : ReflTransGen (DescStep ic ctl addr) (.new i₀ cd) s) :
    Reachable (descMonitor ic ctl) cd s.calls := by
  induction hrun with
  | refl => exact .refl
  | tail _ hlast ih =>
      cases hlast with
      | retain => exact ih
      | release => exact ih
      | call i calls _ hcall => exact ih.tail ⟨i, hcall⟩

/-- In every run the object, its lock and its converter are there at each step that is made; they
are given up in the step that gives back the last reference and in no other, when nobody has the
lock, waits for it, or is in a call. -/
theorem descriptor_used_alive (hrun : ReflTransGen (DescStep ic ctl addr) (.new i₀ cd) s) :
    (∀ t, DescStep ic ctl addr s t → s.refs.obj.log = [] ∧
      t.refs.obj.log = if t.refs.held = 0 then givenUp true else []) ∧
    (∀ i, s.calls.place i ≠ .idle → i ∈ s.refs.held ∧ s.refs.obj.log = []) ∧
    (s.refs.obj.log ≠ [] → s.calls.lock = none ∧ ∀ i, s.calls.place i = .idle) := by
  have hlive := live_of_run hrun
  refine ⟨fun t hstep => ⟨hlive.log_eq_nil hstep, (hlive.step hstep).counted.log_eq⟩,
    fun i hi => ⟨hlive.holds i hi, hlive.counted.log_eq_nil (hlive.holds i hi)⟩, fun hlog => ?_⟩
  have hidle : ∀ i, s.calls.place i = .idle := by
    intro i
    by_contra hi
    exact hlog (hlive.counted.log_eq_nil (hlive.holds i hi))
  refine ⟨?_, hidle⟩
  rcases hlock : s.calls.lock with _ | i
  · rfl
  · obtain ⟨op, p, hin⟩ := ((reachable_of_run hrun).exclusive.lock_iff i).mp hlock
    exact nomatch (hidle i).symm.trans hin

/-- One thread is inside, the other waits. -/
theorem descriptor_used_alive_two : ∃ s : SharedDescriptor Bool Bool Bool,
    (s.refs.held = {false, true} ∧ s.calls.place true = .inside (.config true) (.ctl true) ∧
      s.calls.place false = .waiting (.convText ⟨[0x61, 0xE9], 8⟩)) ∧
    (∀ t, DescStep below80 setDiscard 8 s t → s.refs.obj.log = [] ∧
      t.refs.obj.log = if t.refs.held = 0 then givenUp true else []) ∧
    (∀ i, s.calls.place i ≠ .idle → i ∈ s.refs.held ∧ s.refs.obj.log = []) ∧
    (s.refs.obj.log ≠ [] → s.calls.lock = none ∧ ∀ i, s.calls.place i = .idle) := by
  obtain ⟨s, -, hrun, hinside, -⟩ := exists_run_two
  exact ⟨s, hinside, descriptor_used_alive hrun⟩

/-- In every run conversions and configurations return what they would if each took no time, in
the order they return in; with the lock free, the settings are those that the configurations have
come to; and where a thread is in a call, there is one in a call that can make its next step. -/
theorem descriptor_linearizable (S : Settings ic ctl κ)
    (hrun : ReflTransGen (DescStep ic ctl addr) (.new i₀ cd) s) :
    (∃ k, Atomic S.apply (S.setting cd) s.calls.history k ∧
      (s.calls.lock = none → S.setting s.calls.obj = k)) ∧
    ∀ i, s.calls.place i ≠ .idle → ∃ j calls, s.calls.place j ≠ .idle ∧
      Step (descMonitor ic ctl) j s.calls calls ∧
      DescStep ic ctl addr s { s with calls := calls } := by
  have hreach := reachable_of_run hrun
  constructor
  · obtain ⟨cd', hseq, hobj⟩ := hreach.sequential
    exact ⟨S.setting cd', hseq.atomic S.apply_of_yields, fun hfree => by rw [hobj hfree]⟩
  · intro i hi
    obtain ⟨j, calls, hj, hstep⟩ := hreach.exclusive.goes_on hi
    exact ⟨j, calls, hj, hstep, .call j calls (fun hidle => absurd hidle hj) hstep⟩

/-- The two calls of the run of two threads. -/
theorem descriptor_linearizable_two : ∃ s : SharedDescriptor Bool Bool Bool,
    s.calls.history.length = 2 ∧
    (∃ k, Atomic discardSettings.apply false s.calls.history k ∧
      (s.calls.lock = none → s.calls.obj = k)) ∧
    ∀ i, s.calls.place i ≠ .idle → ∃ j calls, s.calls.place j ≠ .idle ∧
      Step (descMonitor below80 setDiscard) j s.calls calls ∧
      DescStep below80 setDiscard 8 s { s with calls := calls } := by
  obtain ⟨_, t, hbefore, -, hafter, hlen, -⟩ := exists_run_two
  exact ⟨t, hlen, descriptor_linearizable discardSettings (hbefore.trans hafter)⟩

end Convd
