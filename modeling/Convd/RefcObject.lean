/-
# `Convd.RefcObject` — reference counts of a descriptor

`refcobject.h` keeps the count in front of the object: a signed 32-bit integer, changed by
atomic additions that return the new value.  Who holds the references is not stored
anywhere; here it is a multiset beside the object (`RefcState`), and a step is a holder
retaining for another or giving back one that is its own.

    count of the object        =  size of the multiset
    what happened to it        =  nothing while somebody holds it, then, in one step,
                                  finalizer, lock, memory, once each

(`Counted`, an invariant of the steps.)
-/
import Convd.Def
import Convd.Lib.Steps
import Mathlib.Data.Multiset.AddSub

namespace Convd

open Relation Steps

/-! ## The code -/

/-- What is done to an object that is given up. -/
inductive RefcEvent where
  | final
  | iconvClose
  | rwlockUninit
  | free
  deriving DecidableEq, Repr

/-- `refc_object_t`, with what was done to it.  The element is a `conv_descriptor_t`, of
which the finalizer looks at `cd`. -/
structure RefcObject where
  refc : Int
  /-- `cd != CONVD_ERROR_ICONV` -/
  opened : Bool
  log : List RefcEvent
  deriving DecidableEq, Repr

/-- `uatomic_int_add`: the new value of an `int`. -/
def uatomicIntAdd (a : Int) : Int := Int.bmod (a + 1) (2 ^ 32)

/-- `uatomic_int_sub` -/
def uatomicIntSub (a : Int) : Int := Int.bmod (a - 1) (2 ^ 32)

/-- `convd_cleanup_cb` -/
def convdCleanupCb (opened : Bool) : List RefcEvent := if opened then [.iconvClose] else []

/-- `refc_object_new`, with `cd` as `convd_create` sets it. -/
def refcObjectNew (opened : Bool) : RefcObject := ⟨1, opened, []⟩

/-- `refc_object_inc`: the pointer returned. -/
def refcObjectInc (ppv : Option Nat) (p : RefcObject) : Option Nat × RefcObject :=
  match ppv with
  | none => (none, p)
  | some addr =>
      let refc := uatomicIntAdd p.refc
      (if refc > 0 then some addr else none, { p with refc := refc })

/-- `refc_object_dec`: what `*ppv` is after it. -/
def refcObjectDec (ppv : Option Nat) (p : RefcObject) : Option Nat × RefcObject :=
  match ppv with
  | none => (none, p)
  | some addr =>
      let refc := uatomicIntSub p.refc
      if refc ≤ 0 then
        (none, { p with
          refc := refc
          log := p.log ++ .final :: convdCleanupCb p.opened ++ [.rwlockUninit, .free] })
      else (some addr, { p with refc := refc })

/-- `convd_retain` -/
def convdRetain (cvd : Option Nat) (p : RefcObject) : Option Nat × RefcObject :=
  refcObjectInc cvd p

/-- `convd_release` -/
def convdRelease (pcvd : Option Nat) (p : RefcObject) : Option Nat × RefcObject :=
  refcObjectDec pcvd p

/-! ## Holders -/

section Holders

variable {ι : Type} [DecidableEq ι]

/-- The object, and for every reference that is out, who holds it. -/
structure RefcState (ι : Type) where
  obj : RefcObject
  held : Multiset ι

/-- A new object, whose one reference `i` holds. -/
def RefcState.new (opened : Bool) (i : ι) : RefcState ι := ⟨refcObjectNew opened, {i}⟩

/-- Through the reference of a holder one more is taken, which is `j`'s if there is one. -/
def RefcState.retain (s : RefcState ι) (addr : Nat) (j : ι) : RefcState ι :=
  let (cvd, obj) := convdRetain (some addr) s.obj
  ⟨obj, if cvd.isSome then j ::ₘ s.held else s.held⟩

/-- `i` gives a reference back. -/
def RefcState.release (s : RefcState ι) (addr : Nat) (i : ι) : RefcState ι :=
  ⟨(convdRelease (some addr) s.obj).2, s.held.erase i⟩

/-- One atomic step, of whichever holder. -/
inductive RefcStep (addr : Nat) : RefcState ι → RefcState ι → Prop where
  | retain (s : RefcState ι) (i j : ι) : i ∈ s.held → s.held.card + 1 < 2 ^ 31 →
      RefcStep addr s (s.retain addr j)
  | release (s : RefcState ι) (i : ι) : i ∈ s.held → RefcStep addr s (s.release addr i)

/-- What becomes of an object in the end, in this order: the finalizer, which closes the converter
if there is one, then the lock and the memory. -/
def givenUp : Bool → List RefcEvent
  | true => [.final, .iconvClose, .rwlockUninit, .free]
  | false => [.final, .rwlockUninit, .free]

/-- The count is that of the references, and the object is given up when there is none. -/
structure Counted (opened : Bool) (s : RefcState ι) : Prop where
  refc_eq : s.obj.refc = s.held.card
  opened_eq : s.obj.opened = opened
  log_eq : s.obj.log = if s.held = 0 then givenUp opened else []
  card_lt : s.held.card < 2 ^ 31

variable {addr : Nat} {opened : Bool} {s t : RefcState ι}

/-- It is what `refc_object_dec` does. -/
theorem givenUp_eq (opened : Bool) :
    .final :: convdCleanupCb opened ++ [.rwlockUninit, .free] = givenUp opened := by
  cases opened <;> rfl

theorem Counted.new (i : ι) : Counted opened (RefcState.new opened i) where
  refc_eq := by simp [RefcState.new, refcObjectNew]
  opened_eq := rfl
  log_eq := by simp [RefcState.new, refcObjectNew]
  card_lt := by simp [RefcState.new]

theorem Counted.log_eq_nil (h : Counted opened s) {i : ι} (hi : i ∈ s.held) : s.obj.log = [] := by
  rw [h.log_eq, if_neg]
  rintro hzero
  rw [hzero] at hi
  exact Multiset.notMem_zero i hi

/-- One more than a count of references is still positive. -/
theorem Counted.add_eq (h : Counted opened s) (hroom : s.held.card + 1 < 2 ^ 31) :
    uatomicIntAdd s.obj.refc = (s.held.card + 1 : Nat) := by
  rw [uatomicIntAdd, h.refc_eq]
  exact Int.bmod_eq_of_le (by omega) (by omega)

theorem Counted.sub_eq (h : Counted opened s) {i : ι} (hi : i ∈ s.held) :
    uatomicIntSub s.obj.refc = (s.held.erase i).card := by
  have hlt := h.card_lt
  have hcard := Multiset.card_erase_add_one hi
  rw [uatomicIntSub, h.refc_eq, ← hcard, Int.bmod_eq_of_le (by omega) (by omega)]
  omega

/-- Retaining through a reference that is held returns the object. -/
theorem Counted.retain_eq (h : Counted opened s) (hroom : s.held.card + 1 < 2 ^ 31) :
    convdRetain (some addr) s.obj
      = (some addr, { s.obj with refc := (s.held.card + 1 : Nat) }) := by
  simp only [convdRetain, refcObjectInc, h.add_eq hroom]
  rw [if_pos (Int.natCast_pos.mpr (Nat.succ_pos _))]

theorem Counted.retain (h : Counted opened s) {i : ι} (j : ι) (hi : i ∈ s.held)
    (hroom : s.held.card + 1 < 2 ^ 31) : Counted opened (s.retain addr j) := by
  have hret : s.retain addr j
      = ⟨{ s.obj with refc := (s.held.card + 1 : Nat) }, j ::ₘ s.held⟩ := by
    simp [RefcState.retain, h.retain_eq hroom]
  rw [hret]
  refine ⟨?_, h.opened_eq, ?_, ?_⟩
  · simp
  · rw [if_neg Multiset.cons_ne_zero]
    exact h.log_eq_nil hi
  · simpa using hroom

theorem Counted.release (h : Counted opened s) {i : ι} (hi : i ∈ s.held) :
    Counted opened (s.release addr i) := by
  have hsub := h.sub_eq hi
  have hlt := Nat.lt_of_le_of_lt (Multiset.card_le_card (Multiset.erase_le i s.held)) h.card_lt
  have hlog := h.log_eq_nil hi
  by_cases hlast : s.held.erase i = 0
  · have hzero : uatomicIntSub s.obj.refc ≤ 0 := by
      rw [hsub, hlast, Multiset.card_zero]
      exact Int.le_refl 0
    have hdec : (convdRelease (some addr) s.obj).2
        = { s.obj with refc := uatomicIntSub s.obj.refc, log := givenUp s.obj.opened } := by
      simp only [convdRelease, refcObjectDec, if_pos hzero, hlog, List.nil_append, givenUp_eq]
    exact ⟨by rw [RefcState.release, hdec]; exact hsub, by rw [RefcState.release, hdec]; exact
      h.opened_eq, by rw [RefcState.release, hdec, if_pos hlast, ← h.opened_eq], hlt⟩
  · have hpos : ¬ uatomicIntSub s.obj.refc ≤ 0 := by
      have := Multiset.card_pos.mpr hlast
      omega
    have hdec : (convdRelease (some addr) s.obj).2
        = { s.obj with refc := uatomicIntSub s.obj.refc } := by
      simp only [convdRelease, refcObjectDec, if_neg hpos]
    exact ⟨by rw [RefcState.release, hdec]; exact hsub, by rw [RefcState.release, hdec]; exact
      h.opened_eq, by rw [RefcState.release, hdec, if_neg hlast]; exact hlog, hlt⟩

theorem Counted.step (h : Counted opened s) (hstep : RefcStep addr s t) : Counted opened t := by
  cases hstep with
  | retain i j hi hroom => exact h.retain j hi hroom
  | release i hi => exact h.release hi

/-- In every run the count is that of the references that are held; the finalizer and the
free run in the step that gives back the last of them, and not before; and whoever holds
a reference can retain the object through it. -/
theorem refcount_exact {i₀ : ι}
    (hrun : ReflTransGen (RefcStep addr) (RefcState.new opened i₀) s) :
    s.obj.refc = s.held.card ∧
      s.obj.log = (if s.held = 0 then givenUp opened else []) ∧
      (∀ t, RefcStep addr s t →
        t.obj.log = s.obj.log ++ if t.held = 0 then givenUp opened else []) ∧
      ∀ i ∈ s.held, s.held.card + 1 < 2 ^ 31 →
        (convdRetain (some addr) s.obj).1 = some addr := by
  have hs : Counted opened s :=
    invariant (P := Counted opened) (fun _ _ h hstep => h.step hstep) hrun (.new i₀)
  refine ⟨hs.refc_eq, hs.log_eq, ?_, ?_⟩
  · intro t hstep
    have hnil : s.obj.log = [] := by
      cases hstep with
      | retain i j hi _ => exact hs.log_eq_nil hi
      | release i hi => exact hs.log_eq_nil hi
    rw [hnil, List.nil_append]
    exact (hs.step hstep).log_eq
  · intro i _ hroom
    rw [hs.retain_eq hroom]

/-- One holder retains for another and both let go. -/
theorem refcount_exact_two :
    ∃ s : RefcState Bool, ReflTransGen (RefcStep 8) (RefcState.new true true) s ∧
      s.obj.refc = s.held.card ∧
      s.obj.log = (if s.held = 0 then givenUp true else []) ∧
      (∀ t, RefcStep 8 s t → t.obj.log = s.obj.log ++ if t.held = 0 then givenUp true else []) ∧
      ∀ i ∈ s.held, s.held.card + 1 < 2 ^ 31 → (convdRetain (some 8) s.obj).1 = some 8 := by
  have h₀ : RefcStep 8 (RefcState.new true true) ((RefcState.new true true).retain 8 false) :=
    .retain _ true false (by decide) (by decide)
  have h₁ : RefcStep 8 ((RefcState.new true true).retain 8 false)
      (((RefcState.new true true).retain 8 false).release 8 true) :=
    .release _ true (by decide)
  have h₂ : RefcStep 8 (((RefcState.new true true).retain 8 false).release 8 true)
      ((((RefcState.new true true).retain 8 false).release 8 true).release 8 false) :=
    .release _ false (by decide)
  have hrun := ((ReflTransGen.single h₀).tail h₁).tail h₂
  exact ⟨_, hrun, refcount_exact hrun⟩

end Holders

end Convd
