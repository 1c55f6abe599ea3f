/-
# `Convd.Lib.Strip` — blanks at both ends, and tokens

`strip p l` is `l` without the elements in `p` at its two ends; `tokens sep p l` cuts `l` at
its separators, strips each segment, and leaves out those of which nothing is left.
`tokensFrom` is the same from the left, with the segment that has been begun, which is the
form a scan meets them in.
-/
import Mathlib.Data.List.DropRight
import Mathlib.Tactic.Common

namespace List

variable {α : Type} (p : α → Bool)

/-- `l` without the elements in `p` at both ends. -/
def strip (l : List α) : List α := (l.dropWhile p).rdropWhile p

/-- What a segment contributes. -/
def token (cur : List α) : List (List α) :=
  if (strip p cur).isEmpty then [] else [strip p cur]

/-- The segments of `l` between separators, stripped, and those of which nothing is left
left out. -/
def tokens (sep : α → Bool) (l : List α) : List (List α) :=
  ((l.splitOnP sep).map (strip p)).filter (!·.isEmpty)

/-- The tokens of `cur ++ l`, no separator being in `cur`. -/
def tokensFrom (sep : α → Bool) (cur : List α) : List α → List (List α)
  | [] => token p cur
  | b :: l => if sep b then token p cur ++ tokensFrom sep [] l else tokensFrom sep (cur ++ [b]) l

variable {p}

/-! ## One end at a time -/

theorem dropWhile_append_of_forall {w : List α} (hw : ∀ a ∈ w, p a) (l : List α) :
    (w ++ l).dropWhile p = l.dropWhile p := by
  induction w with
  | nil => rfl
  | cons a w ih =>
      obtain ⟨ha, hw⟩ := forall_mem_cons.mp hw
      rw [cons_append, dropWhile_cons_of_pos ha, ih hw]

theorem rdropWhile_append_of_not {a : α} (ha : p a = false) (k l : List α) :
    (k ++ a :: l).rdropWhile p = k ++ a :: l.rdropWhile p := by
  induction l using reverseRecOn with
  | nil =>
      have hna : ¬ p a := by simp [ha]
      rw [rdropWhile_concat_neg _ _ _ hna, rdropWhile_nil]
  | append_singleton l b ih =>
      rw [← cons_append, ← append_assoc, rdropWhile_concat, ih, rdropWhile_concat]
      split
      · rfl
      · rw [append_assoc, cons_append]

/-- Either only blanks are there, or a last element that is none, with blanks behind it. -/
theorem rdropWhile_cases (l : List α) :
    ((∀ a ∈ l, p a) ∧ l.rdropWhile p = []) ∨
      ∃ u c v, p c = false ∧ (∀ a ∈ v, p a) ∧ l = u ++ c :: v ∧ l.rdropWhile p = u ++ [c] := by
  rcases eq_nil_or_concat' (l.rdropWhile p) with hnil | ⟨u, c, hconcat⟩
  · exact .inl ⟨rdropWhile_eq_nil_iff.mp hnil, hnil⟩
  · refine .inr ⟨u, c, l.rtakeWhile p, ?_, fun a ha => mem_rtakeWhile_imp ha, ?_, hconcat⟩
    · have hne : l.rdropWhile p ≠ [] := by simp [hconcat]
      have hlast := rdropWhile_last_not p l hne
      simpa [hconcat] using hlast
    · have hsplit := @rdropWhile_append_rtakeWhile _ p l
      rwa [hconcat, append_assoc, singleton_append, eq_comm] at hsplit

/-- How much is left at most. -/
theorem length_rdropWhile_le_iff {l : List α} {n : Nat} :
    (l.rdropWhile p).length ≤ n ↔ ∀ a ∈ l.drop n, p a := by
  rcases @rdropWhile_cases _ p l with ⟨hall, hnil⟩ | ⟨u, c, v, hc, hv, rfl, hcut⟩
  · rw [hnil]
    exact iff_of_true (Nat.zero_le n) fun a ha => hall a (mem_of_mem_drop ha)
  · rw [hcut, length_append, length_singleton]
    constructor
    · intro hle a ha
      obtain ⟨k, rfl⟩ := Nat.exists_eq_add_of_le hle
      rw [append_cons, ← drop_drop, drop_left' (by simp)] at ha
      exact hv a (mem_of_mem_drop ha)
    · intro hall
      by_contra hlt
      have hmem : c ∈ (u ++ c :: v).drop n := by
        rw [drop_append_of_le_length (by omega)]
        exact mem_append_right _ mem_cons_self
      rw [hall c hmem] at hc
      cases hc

/-! ## Both ends -/

@[simp] theorem strip_nil : strip p [] = [] := rfl

/-- Blanks in front do not matter. -/
theorem strip_append_left {w : List α} (hw : ∀ a ∈ w, p a) (l : List α) :
    strip p (w ++ l) = strip p l := by
  rw [strip, dropWhile_append_of_forall hw, strip]

theorem strip_of_forall {w : List α} (hw : ∀ a ∈ w, p a) : strip p w = [] := by
  have h := strip_append_left hw []
  rwa [append_nil] at h

/-- Behind an element that is no blank only the end is stripped. -/
theorem strip_cons_of_not {a : α} (ha : p a = false) (l : List α) :
    strip p (a :: l) = a :: l.rdropWhile p := by
  have hna : ¬ p a := by simp [ha]
  rw [strip, dropWhile_cons_of_neg hna]
  exact rdropWhile_append_of_not ha [] l

/-- A list that has no blank at either end. -/
theorem strip_eq_self {l : List α} (hhead : ∀ a ∈ l.head?, p a = false)
    (hlast : ∀ a ∈ l.getLast?, p a = false) : strip p l = l := by
  cases l with
  | nil => rfl
  | cons a l =>
      have hna : ¬ p a := by simp [hhead a rfl]
      rw [strip, dropWhile_cons_of_neg hna, rdropWhile_eq_self_iff]
      intro hne
      have := hlast _ (getLast?_eq_some_getLast hne)
      simp [this]

/-- Stripping takes a list apart into blanks, what is left, and blanks. -/
theorem strip_split (l : List α) : ∃ w w', l = w ++ strip p l ++ w' ∧ (∀ a ∈ w, p a) ∧
    ∀ a ∈ w', p a := by
  refine ⟨l.takeWhile p, (l.dropWhile p).rtakeWhile p, ?_, ?_, ?_⟩
  · rw [strip, append_assoc, rdropWhile_append_rtakeWhile, takeWhile_append_dropWhile]
  · exact fun a ha => mem_takeWhile_imp ha
  · exact fun a ha => mem_rtakeWhile_imp ha

theorem strip_subset (l : List α) : strip p l ⊆ l := by
  obtain ⟨w, w', hl, -, -⟩ := @strip_split _ p l
  intro a ha
  rw [hl]
  exact mem_append_left _ (mem_append_right _ ha)

theorem length_strip_le (l : List α) : (strip p l).length ≤ l.length := by
  have hpre := rdropWhile_prefix p (l.dropWhile p)
  exact hpre.length_le.trans (dropWhile_sublist _).length_le

/-- Blanks at the end alone leave no less. -/
theorem length_strip_le_rdropWhile (l : List α) :
    (strip p l).length ≤ (l.rdropWhile p).length := by
  have hall := length_rdropWhile_le_iff.mp (Nat.le_refl (l.rdropWhile p).length)
  refine length_rdropWhile_le_iff.mpr fun a ha => hall a ?_
  have hdrop := @drop_left α (l.takeWhile p) (l.dropWhile p)
  rw [takeWhile_append_dropWhile] at hdrop
  rw [← hdrop, drop_drop, Nat.add_comm, ← drop_drop] at ha
  exact mem_of_mem_drop ha

/-- What holds at every place of a list, from the left. -/
theorem forall_split_cons {P : List α → α → Prop} (b : α) (l : List α) :
    (∀ before c after, b :: l = before ++ c :: after → P before c) ↔
      P [] b ∧ ∀ before c after, l = before ++ c :: after → P (b :: before) c := by
  constructor
  · intro h
    refine ⟨h [] b l rfl, ?_⟩
    rintro before c after rfl
    exact h (b :: before) c after rfl
  · rintro ⟨hhead, htail⟩ (_ | ⟨a, before⟩) c after hl
    · rw [nil_append] at hl
      obtain ⟨rfl, -⟩ := cons.inj hl
      exact hhead
    · obtain ⟨rfl, hrest⟩ := cons.inj hl
      exact htail before c after hrest

/-! ## Tokens -/

section Tokens

variable {sep : α → Bool}

theorem filter_strip (cur : List α) (ls : List (List α)) :
    ((cur :: ls).map (strip p)).filter (!·.isEmpty)
      = token p cur ++ (ls.map (strip p)).filter (!·.isEmpty) := by
  rw [map_cons, filter_cons, token]
  cases (strip p cur).isEmpty <;> rfl

theorem tokensFrom_eq (cur l : List α) : tokensFrom p sep cur l
    = ((splitOnPPrepend sep l cur.reverse).map (strip p)).filter (!·.isEmpty) := by
  induction l generalizing cur with
  | nil =>
      rw [splitOnPPrepend_nil, reverse_reverse, filter_strip]
      exact (append_nil _).symm
  | cons b l ih =>
      rw [tokensFrom, splitOnPPrepend_cons_eq_if]
      split
      · rw [reverse_reverse, filter_strip, ih, reverse_nil, splitOnPPrepend_nil_right]
      · rw [ih, reverse_append, reverse_singleton, singleton_append]

theorem tokensFrom_nil (l : List α) : tokensFrom p sep [] l = tokens p sep l := tokensFrom_eq [] l

/-- No token has a separator in it. -/
theorem not_sep_of_mem_tokensFrom {cur l : List α} (hcur : ∀ a ∈ cur, sep a = false) :
    ∀ t ∈ tokensFrom p sep cur l, ∀ a ∈ t, sep a = false := by
  have htoken : ∀ {cur : List α}, (∀ a ∈ cur, sep a = false) →
      ∀ t ∈ token p cur, ∀ a ∈ t, sep a = false := by
    intro cur hcur t ht
    rw [token] at ht
    split at ht
    · cases ht
    · rw [mem_singleton.mp ht]
      exact fun a ha => hcur a (strip_subset cur ha)
  induction l generalizing cur with
  | nil => exact htoken hcur
  | cons b l ih =>
      intro t ht
      rw [tokensFrom] at ht
      split at ht
      · rcases mem_append.mp ht with ht | ht
        · exact htoken hcur t ht
        · exact ih (forall_mem_nil _) t ht
      · rename_i hb
        refine ih ?_ t ht
        intro a ha
        rcases mem_append.mp ha with ha | ha
        · exact hcur a ha
        · rw [mem_singleton.mp ha]
          simpa using hb

end Tokens

end List
