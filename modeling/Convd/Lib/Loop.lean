/-
# `Convd.Lib.Loop` — a loop as a turn function, run on fuel

A `while` of the source is given by its *turn*: one pass through the guard and
the body, which either goes round again from a new state or leaves with a
result.  `run` iterates it on fuel, so it computes; `Returns` is what the fuel
is an implementation of, "after finitely many turns the loop leaves with `r`".

    leave at once                                     (`Returns.leave`)
    one turn, then the rest                           (`Returns.again`)
    a state is left with one result only              (`Returns.unique`)
    an invariant of the turns holds at the exit       (`run_invariant`)
    a measure that drops at every turn bounds them    (`run_of_measure`, `returns_of_measure`)
    a set of states no turn leaves: it never ends     (`run_none_of_stuck`)

`runGuarded` asks a guard before each turn, and has no result where it says no: a run that
an invariant keeps inside the guard is one without (`runGuarded_eq_run`).
-/
import Mathlib.Tactic.Common

namespace Loop

/-- What one turn does: another turn from a new state, or out with a result. -/
inductive Turn (σ ρ : Type) where
  | again (s : σ)
  | leave (r : ρ)

variable {σ ρ : Type} {turn : σ → Turn σ ρ}

/-- Iterate `turn` from `s`, at most `fuel` times. -/
def run (turn : σ → Turn σ ρ) : Nat → σ → Option ρ
  | 0, _ => none
  | n + 1, s =>
      match turn s with
      | .leave r => some r
      | .again s' => run turn n s'

/-- The loop started in `s` ends, with result `r`. -/
def Returns (turn : σ → Turn σ ρ) (s : σ) (r : ρ) : Prop := ∃ n, run turn n s = some r

theorem run_succ_leave {n : Nat} {s : σ} {r : ρ} (h : turn s = .leave r) :
    run turn (n + 1) s = some r := by simp [run, h]

theorem run_succ_again {n : Nat} {s s' : σ} (h : turn s = .again s') :
    run turn (n + 1) s = run turn n s' := by simp [run, h]

/-- More fuel changes no result. -/
theorem run_mono {r : ρ} : ∀ {n m : Nat} {s : σ}, n ≤ m →
    run turn n s = some r → run turn m s = some r
  | 0, _, _, _, h => by simp [run] at h
  | n + 1, 0, _, hnm, _ => absurd hnm (by omega)
  | n + 1, m + 1, s, hnm, h => by
      cases ht : turn s with
      | leave r' => rw [run_succ_leave ht] at h ⊢; exact h
      | again s' =>
          rw [run_succ_again ht] at h ⊢
          exact run_mono (Nat.le_of_succ_le_succ hnm) h

theorem Returns.leave {s : σ} {r : ρ} (h : turn s = .leave r) : Returns turn s r :=
  ⟨1, run_succ_leave h⟩

theorem Returns.again {s s' : σ} {r : ρ} (h : turn s = .again s') (hr : Returns turn s' r) :
    Returns turn s r := by
  obtain ⟨n, hn⟩ := hr
  exact ⟨n + 1, by rw [run_succ_again h, hn]⟩

/-- A call that more fuel does not change has one result. -/
theorem unique_of_mono {call : Nat → Option ρ}
    (hmono : ∀ {n m : Nat} {r : ρ}, n ≤ m → call n = some r → call m = some r) {r r' : ρ}
    (h : ∃ n, call n = some r) (h' : ∃ n, call n = some r') : r = r' := by
  obtain ⟨n, hn⟩ := h
  obtain ⟨m, hm⟩ := h'
  have h1 := hmono (Nat.le_max_left n m) hn
  have h2 := hmono (Nat.le_max_right n m) hm
  rw [h1] at h2
  exact Option.some.inj h2

theorem Returns.unique {s : σ} {r r' : ρ} (h : Returns turn s r) (h' : Returns turn s r') :
    r = r' :=
  unique_of_mono run_mono h h'

/-- A property that every turn preserves, and that gives `Q` of the result
whenever a turn leaves, gives `Q` of whatever the loop returns. -/
theorem run_invariant {P : σ → Prop} {Q : ρ → Prop}
    (hagain : ∀ s s', P s → turn s = .again s' → P s')
    (hleave : ∀ s r, P s → turn s = .leave r → Q r) :
    ∀ {n : Nat} {s : σ} {r : ρ}, P s → run turn n s = some r → Q r
  | 0, _, _, _, h => by simp [run] at h
  | n + 1, s, r, hs, h => by
      cases ht : turn s with
      | leave r' =>
          rw [run_succ_leave ht] at h
          cases h
          exact hleave s r hs ht
      | again s' =>
          rw [run_succ_again ht] at h
          exact run_invariant hagain hleave (hagain s s' hs ht) h

/-- The variant rule: under an invariant, a measure that drops at every turn that goes round
again bounds the turns. -/
theorem run_of_measure {P : σ → Prop} (μ : σ → Nat)
    (hagain : ∀ s s', P s → turn s = .again s' → P s' ∧ μ s' < μ s) :
    ∀ {n : Nat} {s : σ}, P s → μ s < n → ∃ r, run turn n s = some r
  | 0, _, _, hn => absurd hn (Nat.not_lt_zero _)
  | n + 1, s, hs, hn => by
      cases ht : turn s with
      | leave r => exact ⟨r, run_succ_leave ht⟩
      | again s' =>
          obtain ⟨hs', hlt⟩ := hagain s s' hs ht
          rw [run_succ_again ht]
          exact run_of_measure μ hagain hs' (Nat.lt_of_lt_of_le hlt (Nat.le_of_lt_succ hn))

/-- So the loop ends. -/
theorem returns_of_measure {P : σ → Prop} (μ : σ → Nat)
    (hagain : ∀ s s', P s → turn s = .again s' → P s' ∧ μ s' < μ s) {s : σ} (hs : P s) :
    ∃ r, Returns turn s r := by
  obtain ⟨r, hr⟩ := run_of_measure μ hagain hs (Nat.lt_succ_self _)
  exact ⟨r, _, hr⟩

/-- States that no turn leaves: whatever the fuel, it runs out. -/
theorem run_none_of_stuck {P : σ → Prop} (hstuck : ∀ s, P s → ∃ s', turn s = .again s' ∧ P s') :
    ∀ (n : Nat) {s : σ}, P s → run turn n s = none
  | 0, _, _ => rfl
  | n + 1, s, hs => by
      obtain ⟨s', ht, hs'⟩ := hstuck s hs
      rw [run_succ_again ht]
      exact run_none_of_stuck hstuck n hs'

/-! ## Guards -/

/-- `run`, where a turn from a state that the guard refuses has no result. -/
def runGuarded (ok : σ → Bool) (turn : σ → Turn σ ρ) : Nat → σ → Option ρ
  | 0, _ => none
  | n + 1, s =>
      if ok s then
        match turn s with
        | .leave r => some r
        | .again s' => runGuarded ok turn n s'
      else none

variable {ok : σ → Bool}

theorem runGuarded_none {s : σ} (h : ok s = false) : ∀ n, runGuarded ok turn n s = none
  | 0 => rfl
  | n + 1 => by rw [runGuarded, h, if_neg Bool.false_ne_true]

/-- Under an invariant that gives the guard there is none. -/
theorem runGuarded_eq_run {P : σ → Prop} (hok : ∀ s, P s → ok s = true)
    (hagain : ∀ s s', P s → turn s = .again s' → P s') :
    ∀ (n : Nat) {s : σ}, P s → runGuarded ok turn n s = run turn n s
  | 0, _, _ => rfl
  | n + 1, s, hs => by
      rw [runGuarded, hok s hs, if_pos rfl]
      cases ht : turn s with
      | leave r => rw [run_succ_leave ht]
      | again s' =>
          rw [run_succ_again ht]
          exact runGuarded_eq_run hok hagain n (hagain s s' hs ht)

end Loop
