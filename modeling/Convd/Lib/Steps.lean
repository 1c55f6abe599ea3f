/-
# `Convd.Lib.Steps` — systems that go step by step

Three kinds.  A *relation* `step s t` says what may happen next; its runs are
`Relation.ReflTransGen step`, and what is said of them is said by an invariant
(`invariant`), or by a measure that every step makes smaller (`exists_stuck`).

A *protocol* is a partial function `next s ev`: the event `ev` is allowed in `s` or it
is not.  `follow` runs a list of events through it, and `Leads` is a Hoare triple about
such lists: started in `s` they are all allowed, and end in `t`.

    no event                     stays                     (`Leads.nil`)
    one event, then the rest     composes                  (`Leads.cons`, `Leads.append`)
    events that change nothing   however many there are    (`Leads.of_forall`)

*Actions* are total: a run is `List.foldl next`.  `Meets` says that every action meets a
condition where it is done, `Always` that every state on the way has a property.  Two systems
with the same actions are compared by a relation that each action keeps (`simulates`); and a
property that a step keeps just when it meets a condition holds all the way just when all
steps do (`always_iff_meets`).
-/
import Mathlib.Data.List.Basic
import Mathlib.Logic.Relation

namespace Steps

open Relation

variable {σ : Type*}

/-! ## Relations -/

section Relation

variable {step : σ → σ → Prop}

/-- What every step preserves holds along every run. -/
theorem invariant {P : σ → Prop} (hstep : ∀ s t, P s → step s t → P t) {s t : σ}
    (hrun : ReflTransGen step s t) (hs : P s) : P t := by
  induction hrun with
  | refl => exact hs
  | tail _ hlast ih => exact hstep _ _ ih hlast

/-- Steps that make a measure smaller come to an end. -/
theorem exists_stuck (μ : σ → Nat) (hstep : ∀ s t, step s t → μ t < μ s) :
    ∀ s, ∃ t, ReflTransGen step s t ∧ ∀ u, ¬ step t u := by
  have key : ∀ (k : Nat) (s : σ), μ s = k → ∃ t, ReflTransGen step s t ∧ ∀ u, ¬ step t u := by
    intro k
    induction k using Nat.strongRecOn with
    | ind k ih =>
        intro s hk
        by_cases hstuck : ∃ u, step s u
        · obtain ⟨u, hu⟩ := hstuck
          obtain ⟨t, hrun, ht⟩ := ih (μ u) (hk ▸ hstep s u hu) u rfl
          exact ⟨t, .head hu hrun, ht⟩
        · exact ⟨s, .refl, fun u hu => hstuck ⟨u, hu⟩⟩
  exact fun s => key (μ s) s rfl

end Relation

/-! ## Protocols -/

section Protocol

variable {ε : Type*} {next : σ → ε → Option σ}

/-- Run events through a protocol; none when one of them is not allowed. -/
def follow (next : σ → ε → Option σ) : σ → List ε → Option σ
  | s, [] => some s
  | s, ev :: evs =>
      match next s ev with
      | none => none
      | some t => follow next t evs

/-- Started in `s`, the events are all allowed, and end in `t`. -/
def Leads (next : σ → ε → Option σ) (s : σ) (evs : List ε) (t : σ) : Prop :=
  follow next s evs = some t

theorem Leads.nil {s : σ} : Leads next s [] s := rfl

theorem Leads.cons {s t u : σ} {ev : ε} {evs : List ε} (h : next s ev = some t)
    (hrest : Leads next t evs u) : Leads next s (ev :: evs) u := by
  rw [Leads, follow, h]
  exact hrest

theorem Leads.append : ∀ {s t u : σ} {evs evs' : List ε}, Leads next s evs t →
    Leads next t evs' u → Leads next s (evs ++ evs') u
  | s, t, _, [], _, h, h' => by
      obtain rfl : s = t := Option.some.inj h
      exact h'
  | s, _, _, ev :: evs, _, h, h' => by
      rw [Leads, follow] at h
      rcases hnext : next s ev with _ | s'
      · rw [hnext] at h
        cases h
      · rw [hnext] at h
        exact .cons hnext (Leads.append h h')

/-- Events that are allowed in `s` and leave it as it is. -/
theorem Leads.of_forall {s : σ} : ∀ {evs : List ε}, (∀ ev ∈ evs, next s ev = some s) →
    Leads next s evs s
  | [], _ => .nil
  | ev :: _, h =>
      .cons (h ev List.mem_cons_self) (.of_forall fun ev' h' => h ev' (List.mem_cons_of_mem ev h'))

end Protocol

/-! ## Actions -/

section Action

variable {τ : Type*} {α : Type*} {next : σ → α → σ} {spec : τ → α → τ}

/-- Every action meets the condition, in the state it is done in. -/
def Meets (next : σ → α → σ) (C : σ → α → Prop) : σ → List α → Prop
  | _, [] => True
  | s, a :: as => C s a ∧ Meets next C (next s a) as

/-- Every state on the way has the property, the first and the last included. -/
def Always (next : σ → α → σ) (P : σ → Prop) : σ → List α → Prop
  | s, [] => P s
  | s, a :: as => P s ∧ Always next P (next s a) as

/-- A relation that every action keeps relates the ends of runs that begin in it. -/
theorem simulates {R : σ → τ → Prop} {C : τ → α → Prop}
    (hstep : ∀ s t a, R s t → C t a → R (next s a) (spec t a)) {as : List α} :
    ∀ {s : σ} {t : τ}, R s t → Meets spec C t as → R (as.foldl next s) (as.foldl spec t) := by
  induction as with
  | nil =>
      intro s t h _
      exact h
  | cons a as ih =>
      rintro s t h ⟨ha, has⟩
      exact ih (hstep s t a h ha) has

/-- What is asked of the actions of one system, asked of those of the other. -/
theorem Meets.simulated {R : σ → τ → Prop} {C : τ → α → Prop} {D : σ → α → Prop}
    (hstep : ∀ s t a, R s t → C t a → R (next s a) (spec t a))
    (hmeets : ∀ s t a, R s t → C t a → D s a) {as : List α} :
    ∀ {s : σ} {t : τ}, R s t → Meets spec C t as → Meets next D s as := by
  induction as with
  | nil =>
      intro s t _ _
      trivial
  | cons a as ih =>
      rintro s t h ⟨ha, has⟩
      exact ⟨hmeets s t a h ha, ih (hstep s t a h ha) has⟩

/-- A property that a step, if the action meets `D`, keeps just when it meets `C` holds all the way
just when all steps meet `C`. -/
theorem always_iff_meets {P : σ → Prop} {C D : σ → α → Prop}
    (hstep : ∀ s a, D s a → P s → (P (next s a) ↔ C s a)) {as : List α} :
    ∀ {s : σ}, P s → Meets next D s as → (Always next P s as ↔ Meets next C s as) := by
  have hfirst : ∀ {s : σ} {as : List α}, Always next P s as → P s := by
    intro s as halways
    cases as with
    | nil => exact halways
    | cons a as => exact halways.1
  induction as with
  | nil =>
      intro s hs _
      exact iff_of_true hs trivial
  | cons a as ih =>
      rintro s hs ⟨ha, has⟩
      have hone := hstep s a ha hs
      constructor
      · rintro ⟨-, halways⟩
        have hnext := hfirst halways
        exact ⟨hone.mp hnext, (ih hnext has).mp halways⟩
      · rintro ⟨hc, hmeets⟩
        have hnext := hone.mpr hc
        exact ⟨hs, (ih hnext has).mpr hmeets⟩

end Action

end Steps
