/-
# `Convd.Lib.Units` — a list read in units of one width

`units w f l` cuts `l` into groups of `w` and applies `f` to each; what is left over at the
end and makes no whole group is dropped.  The three facts a reader of units needs are
what it finds at a place (`getElem?_units`), what it finds in a list of written units
(`units_flatMap_append`), and what it finds when it stops early (`units_take`).
-/
import Mathlib.Data.List.TakeDrop
import Mathlib.Tactic.Common

namespace List

variable {α β γ : Type}

/-- `f` of each whole group of `w`. -/
def units (w : Nat) (f : List α → β) (l : List α) : List β :=
  (range (l.length / w)).map fun i => f ((l.drop (i * w)).take w)

variable {w : Nat} {f : List α → β} {l : List α}

@[simp] theorem length_units : (units w f l).length = l.length / w := by
  rw [units, length_map, length_range]

theorem getElem?_units (hw : 0 < w) {i : Nat} (hi : i * w + w ≤ l.length) :
    (units w f l)[i]? = some (f ((l.drop (i * w)).take w)) := by
  have hlt : i < l.length / w := by
    rw [Nat.lt_iff_add_one_le, Nat.le_div_iff_mul_le hw, Nat.succ_mul]
    exact hi
  rw [units, getElem?_map, getElem?_range hlt]
  rfl

theorem getElem?_units_eq_none (hw : 0 < w) {i : Nat} (hi : l.length < i * w + w) :
    (units w f l)[i]? = none := by
  apply getElem?_eq_none
  rw [length_units, ← Nat.lt_succ_iff, Nat.div_lt_iff_lt_mul hw, Nat.succ_mul]
  exact hi

theorem append_inj_iff {u u' l' : List α} (hu : u.length = w) (hu' : u'.length = w) :
    u ++ l = u' ++ l' ↔ u = u' ∧ l = l' := by
  constructor
  · intro happ
    exact append_inj happ (hu.trans hu'.symm)
  · rintro ⟨rfl, rfl⟩
    rfl

/-- The first unit, and the units behind it. -/
theorem units_append (hw : 0 < w) {u : List α} (hu : u.length = w) (l : List α) :
    units w f (u ++ l) = f u :: units w f l := by
  have hcount : (u ++ l).length / w = l.length / w + 1 := by
    rw [length_append, hu, Nat.add_comm, Nat.add_div_right _ hw]
  rw [units, hcount, range_succ_eq_map, map_cons, map_map, Nat.zero_mul, drop_zero,
    take_left' hu, units]
  congr 2
  funext i
  have hskip : (u ++ l).drop ((i + 1) * w) = l.drop (i * w) := by
    rw [Nat.succ_mul, Nat.add_comm, ← drop_drop, drop_left' hu]
  exact congrArg (fun rest => f (rest.take w)) hskip

/-- Units that were written one by one. -/
theorem units_flatMap_append (hw : 0 < w) {g : γ → List α} (hg : ∀ a, (g a).length = w)
    (rest : List α) : ∀ t : List γ,
    units w f (t.flatMap g ++ rest) = t.map (fun a => f (g a)) ++ units w f rest
  | [] => rfl
  | a :: t => by
      rw [flatMap_cons, append_assoc, units_append hw (hg a), units_flatMap_append hw hg rest t,
        map_cons, cons_append]

theorem units_flatMap (hw : 0 < w) {g : γ → List α} (hg : ∀ a, (g a).length = w) (t : List γ) :
    units w f (t.flatMap g) = t.map fun a => f (g a) := by
  have hnil : units w f [] = [] := by rw [units, length_nil, Nat.zero_div]; rfl
  have h := units_flatMap_append (f := f) hw hg [] t
  rwa [append_nil, hnil, append_nil] at h

/-- Two ways to write units agree on a list when they agree on each of its elements. -/
theorem flatMap_eq_flatMap_iff {g g' : γ → List α} (hg : ∀ a, (g a).length = w)
    (hg' : ∀ a, (g' a).length = w) (t : List γ) :
    t.flatMap g = t.flatMap g' ↔ ∀ a ∈ t, g a = g' a := by
  induction t with
  | nil => exact iff_of_true rfl (forall_mem_nil _)
  | cons a t ih =>
      rw [flatMap_cons, flatMap_cons, append_inj_iff (hg a) (hg' a), ih, forall_mem_cons]

/-- The units of the beginning of a list. -/
theorem units_take (hw : 0 < w) (n : Nat) : units w f (l.take n) = (units w f l).take (n / w) := by
  apply ext_getElem?
  intro i
  rcases Nat.lt_or_ge (l.take n).length (i * w + w) with hend | hin
  · rw [getElem?_units_eq_none hw hend]
    rw [length_take, Nat.lt_iff_add_one_le, Nat.min_def] at hend
    symm
    rw [getElem?_take]
    split
    · rename_i hi
      have hle := (Nat.le_div_iff_mul_le hw).mp (Nat.succ_le_of_lt hi)
      rw [Nat.succ_mul] at hle
      apply getElem?_units_eq_none hw
      split at hend <;> omega
    · rfl
  · rw [getElem?_units hw hin]
    rw [length_take] at hin
    have hlt : i < n / w := by
      rw [Nat.lt_iff_add_one_le, Nat.le_div_iff_mul_le hw, Nat.succ_mul]
      omega
    have hsame : ((l.take n).drop (i * w)).take w = (l.drop (i * w)).take w := by
      rw [drop_take, take_take, Nat.min_eq_left (by omega)]
    rw [getElem?_take_of_lt hlt, getElem?_units hw (by omega), hsame]

end List
