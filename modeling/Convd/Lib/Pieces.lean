/-
# `Convd.Lib.Pieces` — where the pieces of a list of lists lie

A list of lists is a text cut into pieces.  `Placed` says where a piece begins in the
text, `EndsAt` where one ends, and `Inside` which positions lie between two elements of
one piece.  Cutting the text at two positions that are not inside leaves whole pieces
in between (`exists_infix_of_not_inside`); cutting it anywhere, `dropText` are the pieces
behind.
-/
import Mathlib.Data.List.Infix
import Mathlib.Tactic.Common

namespace List

variable {α : Type}

/-- The piece `p` begins at `s`. -/
def Placed (ps : List (List α)) (s : Nat) (p : List α) : Prop :=
  ∃ before after, ps = before ++ p :: after ∧ before.flatten.length = s

/-- A piece ends at `e`. -/
def EndsAt (ps : List (List α)) (e : Nat) : Prop := ∃ s p, Placed ps s p ∧ e = s + p.length

/-- The position `n` is between two elements of one piece. -/
def Inside (ps : List (List α)) (n : Nat) : Prop :=
  ∃ s p, Placed ps s p ∧ s < n ∧ n < s + p.length

/-- The pieces of the text behind its first `n` elements; of a piece that `n` divides, what
lies behind. -/
def dropText : Nat → List (List α) → List (List α)
  | _, [] => []
  | n, p :: ps => if n < p.length then p.drop n :: ps else dropText (n - p.length) ps

variable {ps qs : List (List α)} {p q : List α} {s n e : Nat}

/-! ## Pieces -/

theorem not_placed_nil : ¬ Placed ([] : List (List α)) s p := by
  rintro ⟨before, after, h, -⟩
  cases before <;> cases h

theorem placed_cons : Placed (q :: ps) s p ↔
    (s = 0 ∧ p = q) ∨ ∃ s', Placed ps s' p ∧ s = q.length + s' := by
  constructor
  · rintro ⟨_ | ⟨q', before⟩, after, h, rfl⟩
    · cases h
      exact .inl ⟨rfl, rfl⟩
    · cases h
      exact .inr ⟨_, ⟨before, after, rfl, rfl⟩, by rw [flatten_cons, length_append]⟩
  · rintro (⟨rfl, rfl⟩ | ⟨s', ⟨before, after, rfl, rfl⟩, rfl⟩)
    · exact ⟨[], ps, rfl, rfl⟩
    · exact ⟨q :: before, after, rfl, by rw [flatten_cons, length_append]⟩

theorem Placed.mem (h : Placed ps s p) : p ∈ ps := by
  obtain ⟨before, after, rfl, -⟩ := h
  exact mem_append_right _ mem_cons_self

theorem exists_placed_of_mem (h : p ∈ ps) : ∃ s, Placed ps s p := by
  obtain ⟨before, after, rfl⟩ := append_of_mem h
  exact ⟨_, before, after, rfl, rfl⟩

theorem Placed.end_le (h : Placed ps s p) : s + p.length ≤ ps.flatten.length := by
  obtain ⟨before, after, rfl, rfl⟩ := h
  rw [flatten_append, flatten_cons, length_append, length_append]
  omega

theorem Placed.getElem? (h : Placed ps s p) {i : Nat} (hi : i < p.length) :
    ps.flatten[s + i]? = p[i]? := by
  obtain ⟨before, after, rfl, rfl⟩ := h
  rw [flatten_append, flatten_cons, getElem?_append_right (Nat.le_add_right _ _),
    Nat.add_sub_cancel_left, getElem?_append_left hi]

theorem Placed.mono (h : Placed ps s p) (hps : ps <+: qs) : Placed qs s p := by
  obtain ⟨before, after, rfl, hs⟩ := h
  obtain ⟨rest, rfl⟩ := hps
  exact ⟨before, after ++ rest, by rw [append_assoc, cons_append], hs⟩

/-! ## Ends -/

theorem not_endsAt_nil : ¬ EndsAt ([] : List (List α)) e := by
  rintro ⟨s, p, h, -⟩
  exact not_placed_nil h

theorem endsAt_cons : EndsAt (q :: ps) e ↔
    e = q.length ∨ ∃ e', EndsAt ps e' ∧ e = q.length + e' := by
  constructor
  · rintro ⟨s, p, h, rfl⟩
    rcases placed_cons.mp h with ⟨rfl, rfl⟩ | ⟨s', hrest, rfl⟩
    · exact .inl (Nat.zero_add _)
    · exact .inr ⟨s' + p.length, ⟨s', p, hrest, rfl⟩, Nat.add_assoc _ _ _⟩
  · rintro (rfl | ⟨e', ⟨s, p, h, rfl⟩, rfl⟩)
    · exact ⟨0, q, placed_cons.mpr (.inl ⟨rfl, rfl⟩), (Nat.zero_add _).symm⟩
    · exact ⟨q.length + s, p, placed_cons.mpr (.inr ⟨s, h, rfl⟩), (Nat.add_assoc _ _ _).symm⟩

/-- A piece begins where the text does, or where another piece ends. -/
theorem Placed.zero_or_endsAt : ∀ {ps : List (List α)} {s : Nat}, Placed ps s p →
    s = 0 ∨ EndsAt ps s
  | [], _, h => absurd h not_placed_nil
  | q :: ps, _, h => by
      rcases placed_cons.mp h with ⟨rfl, -⟩ | ⟨s', hrest, rfl⟩
      · exact .inl rfl
      · refine .inr (endsAt_cons.mpr ?_)
        rcases hrest.zero_or_endsAt with rfl | hends
        · exact .inl (Nat.add_zero _)
        · exact .inr ⟨s', hends, rfl⟩

/-! ## Positions inside a piece -/

theorem inside_cons : Inside (q :: ps) n ↔
    (0 < n ∧ n < q.length) ∨ ∃ n', Inside ps n' ∧ n = q.length + n' := by
  constructor
  · rintro ⟨s, p, h, hs, hn⟩
    rcases placed_cons.mp h with ⟨rfl, rfl⟩ | ⟨s', hrest, rfl⟩
    · exact .inl ⟨hs, by omega⟩
    · exact .inr ⟨n - q.length, ⟨s', p, hrest, by omega, by omega⟩, by omega⟩
  · rintro (⟨h0, hn⟩ | ⟨n', ⟨s, p, h, hs, hn⟩, rfl⟩)
    · exact ⟨0, q, placed_cons.mpr (.inl ⟨rfl, rfl⟩), h0, by omega⟩
    · exact ⟨q.length + s, p, placed_cons.mpr (.inr ⟨s, h, rfl⟩), by omega, by omega⟩

theorem not_inside_zero : ¬ Inside ps 0 := fun ⟨s, _, _, hs, _⟩ => Nat.not_lt_zero s hs

theorem Inside.append_left (h : Inside ps n) : ∀ (before : List (List α)),
    Inside (before ++ ps) (before.flatten.length + n)
  | [] => by simpa using h
  | q :: before => by
      refine inside_cons.mpr (.inr ⟨_, h.append_left before, ?_⟩)
      rw [flatten_cons, length_append, Nat.add_assoc]

/-- The pieces can be parted at a position that is not inside one. -/
theorem exists_split_of_not_inside : ∀ {ps : List (List α)} {n : Nat}, ¬ Inside ps n →
    n ≤ ps.flatten.length → ∃ before after, ps = before ++ after ∧ before.flatten.length = n
  | [], n, _, hn => ⟨[], [], rfl, (Nat.le_zero.mp hn).symm⟩
  | q :: ps, n, hnot, hn => by
      rw [inside_cons, not_or] at hnot
      rw [flatten_cons, length_append] at hn
      rcases Nat.eq_zero_or_pos n with rfl | h0
      · exact ⟨[], q :: ps, rfl, rfl⟩
      · have hq : q.length ≤ n := Nat.not_lt.mp fun h => hnot.1 ⟨h0, h⟩
        have hrest : ¬ Inside ps (n - q.length) := fun h => hnot.2 ⟨_, h, by omega⟩
        obtain ⟨before, after, rfl, hlen⟩ := exists_split_of_not_inside hrest (by omega)
        refine ⟨q :: before, after, rfl, ?_⟩
        rw [flatten_cons, length_append, hlen]
        omega

/-- Between two positions that are not inside there are whole pieces. -/
theorem exists_infix_of_not_inside {k : Nat} (hn : ¬ Inside ps n) (hk : ¬ Inside ps (n + k))
    (hle : n + k ≤ ps.flatten.length) :
    ∃ piece, piece <:+: ps ∧ piece.flatten = (ps.flatten.drop n).take k := by
  obtain ⟨before, rest, rfl, rfl⟩ := exists_split_of_not_inside hn (by omega)
  have hrest : ¬ Inside rest k := fun h => hk (h.append_left before)
  rw [flatten_append, length_append] at hle
  obtain ⟨piece, after, rfl, rfl⟩ := exists_split_of_not_inside hrest (by omega)
  refine ⟨piece, ⟨before, after, append_assoc _ _ _⟩, ?_⟩
  rw [flatten_append, drop_left, flatten_append, take_left]

/-- No position of `C` divides a piece, said of each piece. -/
theorem forall_not_inside_iff {C : Nat → Prop} : (∀ e, C e → ¬ Inside ps e) ↔
    ∀ s p, Placed ps s p → ∀ i, 0 < i → i < p.length → ¬ C (s + i) := by
  constructor
  · intro h s p hp i h0 hi hcut
    exact h (s + i) hcut ⟨s, p, hp, by omega, by omega⟩
  · rintro h e hcut ⟨s, p, hp, hs, hlt⟩
    obtain ⟨i, rfl⟩ := Nat.exists_eq_add_of_le (Nat.le_of_lt hs)
    exact h s p hp i (by omega) (by omega) hcut

/-! ## The text behind a position -/

theorem flatten_dropText : ∀ (n : Nat) (ps : List (List α)),
    (dropText n ps).flatten = ps.flatten.drop n
  | _, [] => drop_nil.symm
  | n, p :: ps => by
      rw [dropText]
      split
      · rename_i hlt
        rw [flatten_cons, flatten_cons, drop_append_of_le_length (Nat.le_of_lt hlt)]
      · rename_i hge
        rw [flatten_dropText, flatten_cons, drop_append,
          drop_eq_nil_of_le (Nat.not_lt.mp hge), nil_append]

theorem inside_dropText_iff : ∀ {ps : List (List α)} {n : Nat},
    Inside (dropText n ps) e ↔ 0 < e ∧ Inside ps (n + e)
  | [], n => by
      rw [dropText]
      exact ⟨fun ⟨_, _, h, _⟩ => absurd h not_placed_nil,
        fun ⟨_, _, _, h, _⟩ => absurd h not_placed_nil⟩
  | p :: ps, n => by
      rw [dropText, inside_cons]
      split
      · rw [inside_cons, length_drop]
        constructor
        · rintro (⟨h0, hlt⟩ | ⟨e', h, rfl⟩)
          · exact ⟨h0, .inl ⟨by omega, by omega⟩⟩
          · exact ⟨by omega, .inr ⟨e', h, by omega⟩⟩
        · rintro ⟨h0, ⟨-, hlt⟩ | ⟨e', h, heq⟩⟩
          · exact .inl ⟨h0, by omega⟩
          · exact .inr ⟨e', h, by omega⟩
      · rw [inside_dropText_iff]
        constructor
        · rintro ⟨h0, h⟩
          exact ⟨h0, .inr ⟨_, h, by omega⟩⟩
        · rintro ⟨h0, ⟨-, hlt⟩ | ⟨e', h, heq⟩⟩
          · omega
          · have hback : n - p.length + e = e' := by omega
            exact ⟨h0, hback ▸ h⟩

/-- A piece of what lies behind is the end of a piece. -/
theorem suffix_of_mem_dropText : ∀ {ps : List (List α)} {n : Nat}, q ∈ dropText n ps →
    ∃ p ∈ ps, q <:+ p
  | p :: ps, n, h => by
      rw [dropText] at h
      split at h
      · rcases mem_cons.mp h with rfl | h
        · exact ⟨p, mem_cons_self, drop_suffix n p⟩
        · exact ⟨q, mem_cons_of_mem p h, suffix_refl q⟩
      · obtain ⟨p', hp', hq⟩ := suffix_of_mem_dropText h
        exact ⟨p', mem_cons_of_mem p hp', hq⟩

/-- Behind a position that divides no piece there are whole pieces. -/
theorem mem_of_mem_dropText : ∀ {ps : List (List α)} {n : Nat}, ¬ Inside ps n →
    q ∈ dropText n ps → q ∈ ps
  | p :: ps, n, hnot, h => by
      rw [inside_cons, not_or] at hnot
      rw [dropText] at h
      split at h
      · rename_i hlt
        obtain rfl : n = 0 := Nat.eq_zero_of_not_pos fun h0 => hnot.1 ⟨h0, hlt⟩
        exact h
      · rename_i hge
        refine mem_cons_of_mem p (mem_of_mem_dropText (fun hin => hnot.2 ⟨_, hin, ?_⟩) h)
        omega

end List
