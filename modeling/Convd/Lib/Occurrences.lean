/-
# `Convd.Lib.Occurrences` — cutting a list at the occurrences of a pattern

A search from the left finds the first occurrence of a pattern, goes on behind it, and so
finds occurrences that do not overlap.  `CutAt pat l ps` says that `ps` are the parts
of `l` around these occurrences.

    no occurrence in `l`                       one part, `l`       (`CutAt.rest`)
    the first one behind `a`, `l` behind it    `a`, and the parts of `l`   (`CutAt.part`)

The parts are unique (`CutAt.unique`), and exist unless the pattern is empty; joined by the
pattern they are the list (`CutAt.join`).
-/
import Convd.Lib.CString

namespace List

variable {α : Type} {pat l : List α} {ps : List (List α)}

/-- The parts of a list around the occurrences of `pat` that a search from the left finds. -/
inductive CutAt (pat : List α) : List α → List (List α) → Prop where
  | rest {l : List α} : (∀ q, ¬ pat <+: l.drop q) → CutAt pat l [l]
  | part {a l : List α} {ps : List (List α)} :
      (∀ q < a.length, ¬ pat <+: (a ++ (pat ++ l)).drop q) → CutAt pat l ps →
      CutAt pat (a ++ (pat ++ l)) (a :: ps)

theorem CutAt.ne_nil (h : CutAt pat l ps) : ps ≠ [] := by
  cases h <;> exact cons_ne_nil _ _

/-- With something between the parts: the first part, and the rest if there is one. -/
theorem intercalate_cons {a sep : List α} (hne : ps ≠ []) :
    intercalate sep (a :: ps) = a ++ (sep ++ intercalate sep ps) := by
  obtain ⟨b, bs, rfl⟩ := exists_cons_of_ne_nil hne
  rw [intercalate_cons_cons, append_assoc]

/-- The parts, joined by the pattern. -/
theorem CutAt.join (h : CutAt pat l ps) : intercalate pat ps = l := by
  induction h with
  | rest => exact intercalate_singleton
  | part _ hl ih => rw [intercalate_cons hl.ne_nil, ih]

/-- The length of what other joints make of the parts. -/
theorem CutAt.length_intercalate (h : CutAt pat l ps) (sep : List α) :
    (intercalate sep ps).length + (ps.length - 1) * pat.length
      = l.length + (ps.length - 1) * sep.length := by
  induction h with
  | rest => rw [intercalate_singleton, length_singleton, Nat.sub_self, Nat.zero_mul, Nat.zero_mul]
  | @part a l ps _ hl ih =>
      obtain ⟨n, hn⟩ := Nat.exists_eq_add_of_lt (length_pos_iff.mpr hl.ne_nil)
      rw [Nat.zero_add] at hn
      rw [hn, Nat.add_sub_cancel] at ih
      rw [intercalate_cons hl.ne_nil, length_append, length_append, length_append, length_append,
        length_cons, hn, Nat.add_sub_cancel, Nat.succ_mul, Nat.succ_mul]
      omega

/-- Where the pattern stands. -/
theorem prefix_drop_part (b m : List α) : pat <+: (b ++ (pat ++ m)).drop b.length := by
  rw [drop_left]
  exact prefix_append pat m

/-- The first occurrence of a pattern is in one place. -/
theorem first_unique {a a' : List α} {k k' : List α} (heq : a ++ (pat ++ k) = a' ++ (pat ++ k'))
    (h : ∀ q < a.length, ¬ pat <+: (a ++ (pat ++ k)).drop q)
    (h' : ∀ q < a'.length, ¬ pat <+: (a' ++ (pat ++ k')).drop q) : a = a' ∧ k = k' := by
  have hlen : a.length = a'.length := by
    rcases Nat.lt_trichotomy a.length a'.length with hlt | heq' | hgt
    · exact absurd (heq ▸ prefix_drop_part a k) (h' _ hlt)
    · exact heq'
    · exact absurd (heq ▸ prefix_drop_part a' k') (h _ hgt)
  obtain ⟨rfl, hrest⟩ := append_inj heq hlen
  exact ⟨rfl, append_cancel_left hrest⟩

theorem CutAt.unique (h : CutAt pat l ps) : ∀ {qs : List (List α)}, CutAt pat l qs → ps = qs := by
  induction h with
  | rest hnone =>
      rintro qs h'
      cases h' with
      | rest => rfl
      | part _ _ => exact absurd (prefix_drop_part _ _) (hnone _)
  | @part a l ps hfirst hl ih =>
      intro qs h'
      generalize hk : a ++ (pat ++ l) = k at h'
      cases h' with
      | rest hnone => exact absurd (hk ▸ prefix_drop_part a l) (hnone _)
      | @part a' l' qs' hfirst' hl' =>
          obtain ⟨rfl, rfl⟩ := first_unique hk hfirst hfirst'
          rw [ih hl']

end List

namespace CString

variable {pat s : List UInt8}

/-- What `strstr` finds: the first part. -/
theorem strstr_some {p : Nat} (h : strstr pat s = some p) :
    s = s.take p ++ (pat ++ s.drop (p + pat.length)) ∧ (s.take p).length = p ∧
      ∀ q < (s.take p).length, ¬ pat <+: (s.take p ++ (pat ++ s.drop (p + pat.length))).drop q := by
  obtain ⟨hle, ⟨t, ht⟩, hmin⟩ := strstr_eq_some_iff.mp h
  have hdrop : s.drop (p + pat.length) = t := by
    rw [← List.drop_drop, ← ht, List.drop_left]
  have hs : s.take p ++ (pat ++ s.drop (p + pat.length)) = s := by
    rw [hdrop, ht, List.take_append_drop]
  have hlen : (s.take p).length = p := List.length_take_of_le hle
  refine ⟨hs.symm, hlen, ?_⟩
  rw [hs, hlen]
  exact hmin

theorem strstr_none : ∀ {s : List UInt8}, strstr pat s = none → ∀ q, ¬ pat <+: s.drop q
  | [], h, q => by
      rw [strstr] at h
      split at h
      · cases h
      · rename_i hpat
        rw [List.drop_nil, List.prefix_nil]
        exact fun hnil => hpat (List.isEmpty_iff.mpr hnil)
  | c :: s, h, q => by
      rw [strstr] at h
      split at h
      · cases h
      · rename_i hhere
        cases q with
        | zero => exact fun hmatch => hhere (List.isPrefixOf_iff_prefix.mpr hmatch)
        | succ q => exact strstr_none (Option.map_eq_none_iff.mp h) q

/-- A search from the left, again and again, ends when it gets on each time. -/
theorem exists_cutAt (hne : pat ≠ []) (s : List UInt8) : ∃ ps, List.CutAt pat s ps := by
  generalize hn : s.length = n
  induction n using Nat.strongRecOn generalizing s with
  | ind n ih =>
      rcases hfind : strstr pat s with _ | p
      · exact ⟨[s], .rest (strstr_none hfind)⟩
      · obtain ⟨hs, hlen, hfirst⟩ := strstr_some hfind
        have hpos := List.length_pos_iff.mpr hne
        have hless : (s.drop (p + pat.length)).length < n := by
          have hsum := congrArg List.length hs
          rw [List.length_append, List.length_append, hlen] at hsum
          omega
        obtain ⟨ps, hps⟩ := ih _ hless _ rfl
        have hcut := List.CutAt.part hfirst hps
        rw [← hs] at hcut
        exact ⟨s.take p :: ps, hcut⟩

theorem strstr_of_not (h : ∀ q, ¬ pat <+: s.drop q) : strstr pat s = none := by
  rw [Option.eq_none_iff_forall_ne_some]
  intro p hp
  exact h p (strstr_eq_some_iff.mp hp).2.1

theorem strstr_of_first {a l : List UInt8}
    (h : ∀ q < a.length, ¬ pat <+: (a ++ (pat ++ l)).drop q) :
    strstr pat (a ++ (pat ++ l)) = some a.length := by
  rw [strstr_append h, strstr_of_prefix (List.prefix_append pat l), Option.map_some, Nat.zero_add]

end CString
