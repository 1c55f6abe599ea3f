/-
# `Convd.Lib.Block` — strings in an object that has bounds

An object is the list of its bytes, a pointer into it is an offset, and an access outside
it has no result.  So a function that does its accesses here and has a result has not left
the object.

`StrAt b p s` says that `s` stands at `p`: its bytes, none of them NUL, and a NUL behind
them.  The searches of the library are looked up in that string, and a NUL written into it
cuts it in two (`StrAt.cut_left`, `StrAt.cut_right`).
-/
import Convd.Lib.CString
import Mathlib.Data.List.TakeDrop
import Mathlib.Logic.Relator

/-- The bytes of an object. -/
abbrev Block := List UInt8

namespace Block

open CString

/-- `*p = c` -/
def put (b : Block) (p : Nat) (c : UInt8) : Option Block :=
  if p < b.length then some (b.set p c) else none

/-- `memcpy(p, bytes, n)` -/
def putAll (b : Block) (p : Nat) (bytes : List UInt8) : Option Block :=
  if p + bytes.length ≤ b.length then
    some (b.take p ++ bytes ++ b.drop (p + bytes.length))
  else none

/-- The string at `p`; none when there is no NUL from `p` on. -/
def cstrAt (b : Block) (p : Nat) : Option (List UInt8) :=
  if 0 ∈ b.drop p then some (cstr (b.drop p)) else none

/-- Where the last `c` is. -/
def lastIdx (c : UInt8) : List UInt8 → Option Nat
  | [] => none
  | a :: s =>
      match lastIdx c s with
      | some i => some (i + 1)
      | none => if a = c then some 0 else none

/-- `strchr(p, c)`, the NUL being part of the string; the inner `none` is the null pointer. -/
def strchr (b : Block) (p : Nat) (c : UInt8) : Option (Option Nat) :=
  (cstrAt b p).map fun s => ((s ++ [0]).idxOf? c).map (p + ·)

/-- `strrchr(p, c)` -/
def strrchr (b : Block) (p : Nat) (c : UInt8) : Option (Option Nat) :=
  (cstrAt b p).map fun s => (lastIdx c (s ++ [0])).map (p + ·)

/-- `strstr(p, pat)` -/
def strstrAt (b : Block) (p : Nat) (pat : List UInt8) : Option (Option Nat) :=
  (cstrAt b p).map fun s => (strstr pat s).map (p + ·)

/-- `strlen(p)` -/
def strlen (b : Block) (p : Nat) : Option Nat := (cstrAt b p).map List.length

/-- `strnlen(p, n)`, which looks at `n` bytes and no further. -/
def strnlen (b : Block) (p n : Nat) : Option Nat :=
  if 0 ∈ (b.drop p).take n then strlen b p
  else if p + n ≤ b.length then some n else none

/-! ## Strings -/

/-- The string `s` stands at `p`. -/
def StrAt (b : Block) (p : Nat) (s : List UInt8) : Prop :=
  0 ∉ s ∧ ∃ rest, b.drop p = s ++ 0 :: rest

variable {b : Block} {p q : Nat} {s t u v : List UInt8} {c : UInt8}

/-- What stands at a place, and what behind it. -/
theorem of_drop_eq_cons (h : b.drop p = c :: v) : b[p]? = some c ∧ b.drop (p + 1) = v := by
  constructor
  · rw [← Nat.add_zero p, ← List.getElem?_drop, h, List.getElem?_cons_zero]
  · rw [← List.drop_drop, h, List.drop_succ_cons, List.drop_zero]

/-- A string fills the object but for its NUL and what lies behind that. -/
theorem StrAt.split (h : StrAt b p s) : ∃ pre rest, b = pre ++ (s ++ 0 :: rest) ∧
    pre.length = p := by
  obtain ⟨-, rest, hdrop⟩ := h
  refine ⟨b.take p, rest, ?_, ?_⟩
  · rw [← hdrop, List.take_append_drop]
  · rw [List.length_take_of_le]
    by_contra hlt
    rw [List.drop_eq_nil_of_le (Nat.le_of_not_le hlt)] at hdrop
    exact List.cons_ne_nil 0 rest (List.append_eq_nil_iff.mp hdrop.symm).2

theorem StrAt.lt_length (h : StrAt b p s) : p + s.length < b.length := by
  obtain ⟨pre, rest, rfl, rfl⟩ := h.split
  rw [List.length_append, List.length_append, List.length_cons]
  omega

theorem StrAt.cstrAt_eq (h : StrAt b p s) : cstrAt b p = some s := by
  obtain ⟨hs, rest, hdrop⟩ := h
  have hne : ∀ a ∈ s, a ≠ 0 := by
    rintro a ha rfl
    exact hs ha
  rw [cstrAt, hdrop, if_pos (List.mem_append_right _ List.mem_cons_self),
    cstr_append_zero hne rest]

theorem StrAt.strlen_eq (h : StrAt b p s) : strlen b p = some s.length := by
  rw [strlen, h.cstrAt_eq, Option.map_some]

theorem StrAt.strnlen_eq (h : StrAt b p s) (n : Nat) : strnlen b p n = some (min s.length n) := by
  have hlen := h.lt_length
  obtain ⟨hs, rest, hdrop⟩ := h
  rw [strnlen]
  split
  · rename_i hmem
    have hlt : s.length < n := by
      by_contra hle
      rw [hdrop, List.take_append_of_le_length (Nat.le_of_not_lt hle)] at hmem
      exact hs (List.mem_of_mem_take hmem)
    rw [StrAt.strlen_eq ⟨hs, rest, hdrop⟩, Nat.min_eq_left (Nat.le_of_lt hlt)]
  · rename_i hmem
    have hle : n ≤ s.length := by
      by_contra hlt
      apply hmem
      rw [hdrop, List.take_append, List.mem_append]
      obtain ⟨k, hk⟩ := Nat.exists_eq_add_of_lt (Nat.lt_of_not_le hlt)
      have hoff : n - s.length = k + 1 := by omega
      rw [hoff, List.take_succ_cons]
      exact .inr List.mem_cons_self
    rw [if_pos (by omega), Nat.min_eq_right hle]

theorem StrAt.unique (h : StrAt b p s) (h' : StrAt b p t) : s = t :=
  Option.some.inj (h.cstrAt_eq.symm.trans h'.cstrAt_eq)

theorem StrAt.rightUnique (b : Block) : Relator.RightUnique (StrAt b) :=
  fun _ _ _ h h' => h.unique h'

/-- A character of the string, or its NUL. -/
theorem StrAt.getElem? (h : StrAt b p s) {i : Nat} (hi : i ≤ s.length) :
    b[p + i]? = some (s[i]?.getD 0) := by
  obtain ⟨-, rest, hdrop⟩ := h
  rw [← List.getElem?_drop, hdrop]
  rcases Nat.lt_or_eq_of_le hi with hlt | rfl
  · rw [List.getElem?_append_left hlt, List.getElem?_eq_getElem hlt]
    rfl
  · rw [List.getElem?_append_right (Nat.le_refl _), Nat.sub_self, List.getElem?_cons_zero,
      List.getElem?_eq_none (Nat.le_refl _)]
    rfl

/-- A string goes on behind its beginning. -/
theorem StrAt.tail (h : StrAt b p (u ++ v)) : StrAt b (p + u.length) v := by
  obtain ⟨hs, rest, hdrop⟩ := h
  refine ⟨fun hv => hs (List.mem_append_right _ hv), rest, ?_⟩
  rw [← List.drop_drop, hdrop, List.append_assoc, List.drop_left]

theorem StrAt.drop (h : StrAt b p s) {i : Nat} (hi : i ≤ s.length) :
    StrAt b (p + i) (s.drop i) := by
  have htail := StrAt.tail ((List.take_append_drop i s).symm ▸ h)
  rwa [List.length_take_of_le hi] at htail

theorem StrAt.behind (h : StrAt b p (u ++ c :: v)) : StrAt b (p + u.length + 1) v := by
  rw [List.append_cons] at h
  have := h.tail
  rwa [List.length_append, List.length_singleton, ← Nat.add_assoc] at this

theorem StrAt.dropWhile (h : StrAt b p s) (f : UInt8 → Bool) :
    StrAt b (p + (s.takeWhile f).length) (s.dropWhile f) :=
  StrAt.tail (List.takeWhile_append_dropWhile (p := f) ▸ h)

/-! ## Searching -/

theorem idxOf?_of_notMem (hu : c ∉ u) : (u ++ c :: v).idxOf? c = some u.length := by
  induction u with
  | nil => rw [List.nil_append, List.idxOf?_cons, if_pos (beq_self_eq_true c), List.length_nil]
  | cons a u ih =>
      obtain ⟨ha, hu⟩ := List.ne_and_not_mem_of_not_mem_cons hu
      rw [List.cons_append, List.idxOf?_cons, ih hu]
      simp [Ne.symm ha]

theorem lastIdx_eq_none (hs : c ∉ s) : lastIdx c s = none := by
  induction s with
  | nil => rfl
  | cons a s ih =>
      obtain ⟨ha, hs⟩ := List.ne_and_not_mem_of_not_mem_cons hs
      rw [lastIdx, ih hs, if_neg (Ne.symm ha)]

theorem lastIdx_of_notMem (hv : c ∉ v) : lastIdx c (u ++ c :: v) = some u.length := by
  induction u with
  | nil => rw [List.nil_append, lastIdx, lastIdx_eq_none hv, if_pos rfl, List.length_nil]
  | cons a u ih => rw [List.cons_append, lastIdx, ih, List.length_cons]

theorem notMem_concat_zero (hs : c ∉ s) (hc : c ≠ 0) : c ∉ s ++ [0] := by
  simpa [hs] using hc

theorem StrAt.strchr_eq (h : StrAt b p s) (hc : c ≠ 0) :
    strchr b p c = some ((s.idxOf? c).map (p + ·)) := by
  rw [strchr, h.cstrAt_eq, Option.map_some]
  by_cases hs : c ∈ s
  · obtain ⟨u, v, rfl, hu⟩ := List.eq_append_cons_of_mem hs
    rw [List.append_assoc, List.cons_append, idxOf?_of_notMem hu, idxOf?_of_notMem hu]
  · rw [List.idxOf?_eq_none_iff.mpr (notMem_concat_zero hs hc), List.idxOf?_eq_none_iff.mpr hs]

theorem exists_last (hs : c ∈ s) : ∃ u v, s = u ++ c :: v ∧ c ∉ v := by
  obtain ⟨v, u, hrev, hv⟩ := List.eq_append_cons_of_mem (List.mem_reverse.mpr hs)
  refine ⟨u.reverse, v.reverse, ?_, fun h => hv (List.mem_reverse.mp h)⟩
  rw [← List.reverse_reverse s, hrev]
  simp

theorem StrAt.strrchr_eq (h : StrAt b p s) (hc : c ≠ 0) :
    strrchr b p c = some ((lastIdx c s).map (p + ·)) := by
  rw [strrchr, h.cstrAt_eq, Option.map_some]
  by_cases hs : c ∈ s
  · obtain ⟨u, v, rfl, hv⟩ := exists_last hs
    rw [List.append_assoc, List.cons_append, lastIdx_of_notMem hv,
      lastIdx_of_notMem (notMem_concat_zero hv hc)]
  · rw [lastIdx_eq_none (notMem_concat_zero hs hc), lastIdx_eq_none hs]

theorem lt_of_idxOf? {i : Nat} (h : s.idxOf? c = some i) : i < s.length := by
  by_cases hs : c ∈ s
  · obtain ⟨u, v, rfl, hu⟩ := List.eq_append_cons_of_mem hs
    rw [idxOf?_of_notMem hu] at h
    obtain rfl := Option.some.inj h
    rw [List.length_append, List.length_cons]
    omega
  · rw [List.idxOf?_eq_none_iff.mpr hs] at h
    cases h

theorem lt_of_lastIdx {i : Nat} (h : lastIdx c s = some i) : i < s.length := by
  by_cases hs : c ∈ s
  · obtain ⟨u, v, rfl, hv⟩ := exists_last hs
    rw [lastIdx_of_notMem hv] at h
    obtain rfl := Option.some.inj h
    rw [List.length_append, List.length_cons]
    omega
  · rw [lastIdx_eq_none hs] at h
    cases h

theorem StrAt.ne_zero (h : StrAt b p (u ++ c :: v)) : c ≠ 0 := by
  rintro rfl
  exact h.1 List.mem_append_cons_self

theorem StrAt.strchr_mem (h : StrAt b p (u ++ c :: v)) (hu : c ∉ u) :
    strchr b p c = some (some (p + u.length)) := by
  rw [h.strchr_eq h.ne_zero, idxOf?_of_notMem hu, Option.map_some]

theorem StrAt.strchr_notMem (h : StrAt b p s) (hs : c ∉ s) (hc : c ≠ 0) :
    strchr b p c = some none := by
  rw [h.strchr_eq hc, List.idxOf?_eq_none_iff.mpr hs, Option.map_none]

theorem StrAt.strrchr_mem (h : StrAt b p (u ++ c :: v)) (hv : c ∉ v) :
    strrchr b p c = some (some (p + u.length)) := by
  rw [h.strrchr_eq h.ne_zero, lastIdx_of_notMem hv, Option.map_some]

theorem StrAt.strrchr_notMem (h : StrAt b p s) (hs : c ∉ s) (hc : c ≠ 0) :
    strrchr b p c = some none := by
  rw [h.strrchr_eq hc, lastIdx_eq_none hs, Option.map_none]

/-! ## Writing -/

theorem put_append (a : UInt8) : put (u ++ c :: v) u.length a = some (u ++ a :: v) := by
  have hlt : u.length < (u ++ c :: v).length := by
    rw [List.length_append, List.length_cons]
    omega
  rw [put, if_pos hlt, List.set_append_right _ _ (Nat.le_refl _), Nat.sub_self, List.set_cons_zero]

theorem put_of_lt (h : p < b.length) (c : UInt8) : put b p c = some (b.set p c) := if_pos h

/-- Bytes written behind what stands at the beginning. -/
theorem putAll_of_prefix (h : s <+: b) (hlen : s.length + t.length ≤ b.length) :
    ∃ b', putAll b s.length t = some b' ∧ s ++ t <+: b' ∧ b'.length = b.length := by
  obtain ⟨rest, rfl⟩ := h
  rw [List.length_append] at hlen
  refine ⟨s ++ t ++ rest.drop t.length, ?_, List.prefix_append _ _, ?_⟩
  · rw [putAll, if_pos (by rw [List.length_append]; omega), List.take_left, List.drop_append,
      List.drop_eq_nil_of_le (Nat.le_add_right _ _), Nat.add_sub_cancel_left, List.nil_append]
  · simp only [List.length_append, List.length_drop]
    omega

theorem put_of_prefix (h : s <+: b) (hlen : s.length < b.length) (c : UInt8) :
    ∃ b', put b s.length c = some b' ∧ s ++ [c] <+: b' ∧ b'.length = b.length := by
  obtain ⟨_ | ⟨a, rest⟩, rfl⟩ := h
  · rw [List.append_nil] at hlen
    exact absurd hlen (Nat.lt_irrefl _)
  · exact ⟨s ++ c :: rest, put_append c, ⟨rest, (List.append_cons s c rest).symm⟩, by simp⟩

theorem strAt_of_prefix (h : s ++ [0] <+: b) (hs : 0 ∉ s) : StrAt b 0 s := by
  obtain ⟨rest, rfl⟩ := h
  exact ⟨hs, rest, by simp⟩

/-- A write into a string or at its NUL. -/
theorem StrAt.put_eq (h : StrAt b p s) {i : Nat} (hi : i ≤ s.length) (c : UInt8) :
    put b (p + i) c = some (b.set (p + i) c) :=
  put_of_lt (Nat.lt_of_le_of_lt (Nat.add_le_add_left hi p) h.lt_length) c

/-- A write in front of a string or behind its NUL leaves it. -/
theorem StrAt.set_of_outside (h : StrAt b p s) {i : Nat} (hi : i < p ∨ p + s.length < i)
    (c : UInt8) : StrAt (b.set i c) p s := by
  obtain ⟨hs, rest, hdrop⟩ := h
  rcases hi with hi | hi
  · exact ⟨hs, rest, by rw [List.drop_set_of_lt hi, hdrop]⟩
  · refine ⟨hs, rest.set (i - p - s.length - 1) c, ?_⟩
    obtain ⟨k, hk⟩ := Nat.exists_eq_add_of_lt hi
    have hoff : i - p - s.length = k + 1 := by omega
    rw [List.drop_set, if_neg (by omega), hdrop, List.set_append_right _ _ (by omega), hoff,
      List.set_cons_succ, Nat.add_sub_cancel]

/-- A NUL ends the string that is in front of it. -/
theorem StrAt.cut_left (h : StrAt b p (u ++ v)) : StrAt (b.set (p + u.length) 0) p u := by
  obtain ⟨hs, rest, hdrop⟩ := h
  refine ⟨fun hu => hs (List.mem_append_left _ hu), (v ++ 0 :: rest).tail, ?_⟩
  rw [List.drop_set, if_neg (by omega), hdrop, Nat.add_sub_cancel_left, List.append_assoc,
    List.set_append_right _ _ (Nat.le_refl _), Nat.sub_self]
  cases v <;> rfl

/-- The NUL of a string, written once more. -/
theorem StrAt.put_end (h : StrAt b p s) :
    put b (p + s.length) 0 = some (b.set (p + s.length) 0) ∧
      StrAt (b.set (p + s.length) 0) p s := by
  refine ⟨h.put_eq (Nat.le_refl s.length) 0, ?_⟩
  rw [← List.append_nil s] at h
  exact h.cut_left

/-- What was behind the character is a string of its own. -/
theorem StrAt.cut_right (h : StrAt b p (u ++ c :: v)) :
    StrAt (b.set (p + u.length) 0) (p + u.length + 1) v :=
  h.behind.set_of_outside (.inl (Nat.lt_succ_self _)) 0

end Block
