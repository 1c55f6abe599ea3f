/-
# `Convd.Lib.Mem` — flat memory

A memory is a function from offsets to cells.  `store` copies a list of cells
in at an offset, `load` reads a list back.  Nothing here knows the size of an
allocation: an access says where it goes, and whether it stays inside is a
question about the access (`Span.Within`), asked where the size is known.
-/
import Mathlib.Tactic.Common

/-- Cells by offset. -/
abbrev Mem (α : Type) := Nat → α

namespace Mem

variable {α : Type}

/-- `memcpy(m + off, bs, bs.length)`. -/
def store (m : Mem α) (off : Nat) (bs : List α) : Mem α := fun i =>
  if off ≤ i then (bs[i - off]?).getD (m i) else m i

/-- The `n` cells from `off` on. -/
def load (m : Mem α) : Nat → Nat → List α
  | _, 0 => []
  | off, n + 1 => m off :: load m (off + 1) n

/-- The memory a list stands for: its cells, then `d` for ever. -/
def ofList (d : α) (bs : List α) : Mem α := fun i => bs[i]?.getD d

/-! ## Reading -/

@[simp] theorem load_zero (m : Mem α) (off : Nat) : load m off 0 = [] := rfl

@[simp] theorem length_load (m : Mem α) : ∀ (off n : Nat), (load m off n).length = n
  | _, 0 => rfl
  | off, n + 1 => by simp [load, length_load m (off + 1) n]

theorem getElem?_load (m : Mem α) : ∀ (off n i : Nat),
    (load m off n)[i]? = if i < n then some (m (off + i)) else none
  | _, 0, i => by simp
  | off, n + 1, 0 => by simp [load]
  | off, n + 1, i + 1 => by
      have hi : off + 1 + i = off + (i + 1) := by omega
      simp only [load, List.getElem?_cons_succ, getElem?_load m (off + 1) n i, hi,
        Nat.add_lt_add_iff_right]

@[simp] theorem getElem_load (m : Mem α) {off n i : Nat} (h : i < (load m off n).length) :
    (load m off n)[i] = m (off + i) := by
  have hi : i < n := by simpa using h
  have := getElem?_load m off n i
  rw [if_pos hi, List.getElem?_eq_getElem h] at this
  exact Option.some.inj this

/-- Two loads agree when the cells do. -/
theorem load_congr {m m' : Mem α} {off off' n : Nat}
    (h : ∀ i < n, m (off + i) = m' (off' + i)) : load m off n = load m' off' n := by
  apply List.ext_getElem
  · simp
  · intro i h1 h2
    rw [getElem_load, getElem_load]
    exact h i (by simpa using h1)

theorem load_add (m : Mem α) (off a b : Nat) :
    load m off (a + b) = load m off a ++ load m (off + a) b := by
  induction a generalizing off with
  | zero => simp
  | succ a ih =>
      have h1 : a + 1 + b = a + b + 1 := by omega
      have h2 : off + 1 + a = off + (a + 1) := by omega
      rw [h1, load, load, ih, h2, List.cons_append]

theorem take_load (m : Mem α) (off : Nat) {n k : Nat} (h : k ≤ n) :
    (load m off n).take k = load m off k := by
  obtain ⟨b, rfl⟩ := Nat.exists_eq_add_of_le h
  rw [load_add, List.take_left' (by simp)]

theorem drop_load (m : Mem α) (off : Nat) {n k : Nat} (h : k ≤ n) :
    (load m off n).drop k = load m (off + k) (n - k) := by
  obtain ⟨b, rfl⟩ := Nat.exists_eq_add_of_le h
  rw [load_add, List.drop_left' (by simp), Nat.add_sub_cancel_left]

/-! ## Writing, then reading -/

theorem store_apply (m : Mem α) (off : Nat) (bs : List α) (i : Nat) :
    store m off bs i = if off ≤ i then (bs[i - off]?).getD (m i) else m i := rfl

@[simp] theorem store_cons_self (m : Mem α) (off : Nat) (a : α) (bs : List α) :
    store m off (a :: bs) off = a := by
  rw [store_apply, if_pos (Nat.le_refl off), Nat.sub_self]
  rfl

theorem store_singleton_of_ne (m : Mem α) {off i : Nat} (a : α) (h : i ≠ off) :
    store m off [a] i = m i := by
  rw [store_apply]
  split
  · rw [List.getElem?_eq_none (by rw [List.length_singleton]; omega)]
    rfl
  · rfl

@[simp] theorem store_nil (m : Mem α) (off : Nat) : store m off [] = m := by
  funext i
  rw [store_apply, List.getElem?_nil, Option.getD_none, ite_self]

/-- Reading inside what was just written. -/
theorem load_store (m : Mem α) (off : Nat) (bs : List α) {k n : Nat} (h : k + n ≤ bs.length) :
    load (store m off bs) (off + k) n = (bs.drop k).take n := by
  apply List.ext_getElem
  · simp; omega
  · intro i h1 h2
    have hi : i < n := by simpa using h1
    have hk : off + k + i - off = k + i := by omega
    simp only [getElem_load, store_apply, List.getElem_take, List.getElem_drop, hk]
    rw [if_pos (by omega), List.getElem?_eq_getElem (by omega)]
    rfl

theorem load_store_self (m : Mem α) (off : Nat) (bs : List α) :
    load (store m off bs) off bs.length = bs := by
  have := load_store m off bs (k := 0) (n := bs.length) (by omega)
  simpa using this

/-- A store leaves what it does not touch. -/
theorem load_store_of_disjoint (m : Mem α) {off off' n : Nat} {bs : List α}
    (h : off' + n ≤ off ∨ off + bs.length ≤ off') :
    load (store m off bs) off' n = load m off' n := by
  apply load_congr
  intro i hi
  rw [store_apply]
  split
  · rw [List.getElem?_eq_none (by omega)]
    rfl
  · rfl

/-- Two stores, one behind the other. -/
theorem store_append (m : Mem α) (off : Nat) (bs cs : List α) :
    store (store m off bs) (off + bs.length) cs = store m off (bs ++ cs) := by
  funext i
  rcases Nat.lt_or_ge i (off + bs.length) with hlt | hge
  · rw [store_apply, if_neg (Nat.not_le.mpr hlt), store_apply, store_apply]
    split
    · rw [List.getElem?_append_left (by omega)]
    · rfl
  · have hoff : off ≤ i := by omega
    have hsub : i - off - bs.length = i - (off + bs.length) := Nat.sub_sub i off bs.length
    have hend : bs[i - off]? = none := List.getElem?_eq_none (by omega)
    rw [store_apply, if_pos hge, store_apply, if_pos hoff, store_apply, if_pos hoff,
      List.getElem?_append_right (by omega), hsub, hend, Option.getD_none]

/-- What lies before a store stays. -/
theorem load_store_before (m : Mem α) {off n : Nat} (bs : List α) (h : n ≤ off) :
    load (store m off bs) 0 n = load m 0 n :=
  load_store_of_disjoint m (.inl ((Nat.zero_add n).symm ▸ h))

/-- What was there before, and behind it what was written. -/
theorem load_store_append (m : Mem α) (off : Nat) (bs : List α) :
    load (store m off bs) 0 (off + bs.length) = load m 0 off ++ bs := by
  rw [load_add, Nat.zero_add, load_store_self, load_store_before m bs (Nat.le_refl off)]

@[simp] theorem load_ofList (d : α) (bs : List α) : load (ofList d bs) 0 bs.length = bs := by
  apply List.ext_getElem
  · simp
  · intro i h1 h2
    simp [ofList, List.getElem?_eq_getElem h2]

end Mem

/-- The cells an access touches: `len` of them from `off` on. -/
structure Span where
  off : Nat
  len : Nat
  deriving DecidableEq, Repr

/-- The access stays inside an object of `size` cells. -/
def Span.Within (a : Span) (size : Nat) : Prop := a.off + a.len ≤ size

instance (a : Span) (size : Nat) : Decidable (a.Within size) :=
  inferInstanceAs (Decidable (_ ≤ _))
