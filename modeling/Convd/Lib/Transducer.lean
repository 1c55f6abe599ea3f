/-
# `Convd.Lib.Transducer` — machines that turn one text into another

A transducer reads a text letter by letter, emits a word for each letter and may refuse
one.  What it owes when the text is over, a closing sequence or a letter it kept back, is
the *flush* of the state it is left in.  `run` is the conversion up to there, `complete`
the conversion with it.

A run is the complete conversion just when nothing is owed (`complete_eq_run_iff`).
-/
import Mathlib.Tactic.Common

/-- A state to start in, a step, and what a state owes. -/
structure Transducer (σ α β : Type) where
  init : σ
  step : σ → α → Option (List β × σ)
  flush : σ → List β

namespace Transducer

variable {σ α β : Type}

/-- The output of a text and the state it leaves; none when a letter is refused. -/
def run (m : Transducer σ α β) : σ → List α → Option (List β × σ)
  | s, [] => some ([], s)
  | s, a :: text =>
      match m.step s a with
      | none => none
      | some (out, s') => (run m s' text).map fun r => (out ++ r.1, r.2)

/-- The conversion of a whole text. -/
def complete (m : Transducer σ α β) (text : List α) : Option (List β) :=
  (m.run m.init text).map fun r => r.1 ++ m.flush r.2

/-- Nothing is owed behind the text. -/
def Settles (m : Transducer σ α β) (text : List α) : Prop :=
  ∀ r ∈ m.run m.init text, m.flush r.2 = []

/-- `decode` undoes complete conversions. -/
def UndoneBy (m : Transducer σ α β) (decode : List β → Option (List α)) : Prop :=
  ∀ text, ∀ out ∈ m.complete text, decode out = some text

theorem complete_of_run {m : Transducer σ α β} {text : List α} {out : List β} {s : σ}
    (h : m.run m.init text = some (out, s)) : m.complete text = some (out ++ m.flush s) := by
  rw [complete, h]
  rfl

/-- The run is all of the conversion if and only if nothing is owed. -/
theorem complete_eq_run_iff {m : Transducer σ α β} {text : List α} {out : List β} {s : σ}
    (h : m.run m.init text = some (out, s)) : m.complete text = some out ↔ m.Settles text := by
  rw [complete_of_run h, Settles, h]
  constructor
  · intro hout r hr
    obtain rfl := Option.some.inj hr
    have hlen := congrArg List.length (Option.some.inj hout)
    rw [List.length_append] at hlen
    exact List.length_eq_zero_iff.mp (Nat.add_eq_left.mp hlen)
  · intro hsettles
    rw [hsettles _ rfl, List.append_nil]

end Transducer
