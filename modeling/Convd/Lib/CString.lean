/-
# `Convd.Lib.CString` — the C string functions, on lists

A C string is the list of its bytes up to the NUL.  `strstr` is the search of the
standard library, with the offset of the match in place of a pointer;
`strstr_eq_some_iff` is its specification, the leftmost occurrence, and
`strstr_append` the form a search over a text made of known pieces needs.
-/
import Mathlib.Data.List.Chain
import Mathlib.Data.List.TakeWhile
import Mathlib.Tactic.Common

namespace CString

/-- The C string a list of bytes starts with. -/
def cstr (l : List UInt8) : List UInt8 := l.takeWhile (· ≠ 0)

/-- `strstr(s, pat)`: where `pat` first occurs. -/
def strstr (pat : List UInt8) : List UInt8 → Option Nat
  | [] => if pat.isEmpty then some 0 else none
  | c :: s => if pat.isPrefixOf (c :: s) then some 0 else (strstr pat s).map (· + 1)

/-- `toupper`, in the "C" locale. -/
def toupper (c : UInt8) : UInt8 := if 97 ≤ c ∧ c ≤ 122 then c - 32 else c

/-- `isspace`, in the "C" locale: space, tab, newline, vertical tab, form feed, return. -/
def isspace (c : UInt8) : Bool := c == 32 || decide (9 ≤ c ∧ c ≤ 13)

/-- `isdigit` -/
def isdigit (c : UInt8) : Bool := decide (48 ≤ c ∧ c ≤ 57)

/-- `tolower`, in the "C" locale. -/
def tolower (c : UInt8) : UInt8 := if 65 ≤ c ∧ c ≤ 90 then c + 32 else c

/-- `strcasecmp` of two strings, the NUL behind them included. -/
def strcasecmp : List UInt8 → List UInt8 → Int
  | [], [] => 0
  | [], b :: _ => -((tolower b).toNat : Int)
  | a :: _, [] => (tolower a).toNat
  | a :: s, b :: t =>
      if tolower a = tolower b then strcasecmp s t
      else (tolower a).toNat - (tolower b).toNat

/-- `strcmp` of two strings, the NUL behind them included. -/
def strcmp : List UInt8 → List UInt8 → Int
  | [], [] => 0
  | [], b :: _ => -(b.toNat : Int)
  | a :: _, [] => a.toNat
  | a :: s, b :: t => if a = b then strcmp s t else a.toNat - b.toNat

/-- `strncmp`: of two arrays, as far as a NUL or `n` characters. -/
def strncmp (s t : List UInt8) (n : Nat) : Int := strcmp (cstr (s.take n)) (cstr (t.take n))

/-- `strncasecmp` -/
def strncasecmp (s t : List UInt8) (n : Nat) : Int :=
  strcasecmp (cstr (s.take n)) (cstr (t.take n))

/-! ## Strings -/

theorem cstr_length_le (l : List UInt8) : (cstr l).length ≤ l.length :=
  (List.takeWhile_sublist _).length_le

theorem cstr_eq_take (l : List UInt8) : cstr l = l.take (cstr l).length :=
  List.prefix_iff_eq_take.mp (List.takeWhile_prefix _)

theorem ne_zero_of_mem_cstr {l : List UInt8} {c : UInt8} (h : c ∈ cstr l) : c ≠ 0 := by
  have := List.mem_takeWhile_imp h
  simpa using this

theorem cstr_eq_self {l : List UInt8} (h : ∀ c ∈ l, c ≠ 0) : cstr l = l := by
  induction l with
  | nil => rfl
  | cons c l ih =>
      have hc := h c List.mem_cons_self
      have hl := ih fun d hd => h d (List.mem_cons_of_mem _ hd)
      rw [cstr] at hl ⊢
      rw [List.takeWhile_cons_of_pos (by simpa using hc), hl]

/-- A string ends at its NUL. -/
theorem cstr_append_zero {l : List UInt8} (h : ∀ c ∈ l, c ≠ 0) (rest : List UInt8) :
    cstr (l ++ 0 :: rest) = l := by
  rw [cstr, List.takeWhile_append_of_pos (by simpa using h)]
  simp

@[simp] theorem cstr_zero_cons (l : List UInt8) : cstr (0 :: l) = [] := by simp [cstr]

theorem cstr_cons_of_ne {c : UInt8} (hc : c ≠ 0) (l : List UInt8) :
    cstr (c :: l) = c :: cstr l := by simp [cstr, hc]

/-- A string that goes on where there is no NUL. -/
theorem cstr_append (l rest : List UInt8) :
    cstr (l ++ rest) = if 0 ∈ l then cstr l else l ++ cstr rest := by
  induction l with
  | nil => rfl
  | cons c l ih =>
      by_cases hc : c = 0
      · subst hc
        simp
      · have hmem : 0 ∈ c :: l ↔ 0 ∈ l := by simp [Ne.symm hc]
        rw [List.cons_append, cstr_cons_of_ne hc, cstr_cons_of_ne hc, ih]
        by_cases hl : 0 ∈ l
        · rw [if_pos hl, if_pos (hmem.mpr hl)]
        · rw [if_neg hl, if_neg (fun h => hl (hmem.mp h)), List.cons_append]

theorem length_cstr_lt {l : List UInt8} (h : 0 ∈ l) : (cstr l).length < l.length := by
  induction l with
  | nil => cases h
  | cons c l ih =>
      by_cases hc : c = 0
      · subst hc
        simp
      · have hl : 0 ∈ l := by simpa [Ne.symm hc] using h
        rw [cstr_cons_of_ne hc]
        exact Nat.succ_lt_succ (ih hl)

theorem strcasecmp_self (s : List UInt8) : strcasecmp s s = 0 := by
  induction s with
  | nil => rfl
  | cons c s ih => rw [strcasecmp, if_pos rfl, ih]

theorem tolower_ne_zero {c : UInt8} (hc : c ≠ 0) : tolower c ≠ 0 := by
  rw [tolower]
  split
  · rename_i h
    intro hzero
    have hsum := UInt8.toNat_inj.mpr hzero
    have h65 := UInt8.le_iff_toNat_le.mp h.1
    have h90 := UInt8.le_iff_toNat_le.mp h.2
    simp only [UInt8.toNat_add, UInt8.reduceToNat, UInt8.toNat_zero] at hsum h65 h90
    omega
  · exact hc

/-- A string of any character is not the empty one. -/
theorem strcasecmp_nil_ne {s : List UInt8} (hne : s ≠ []) (hs : ∀ c ∈ s, c ≠ 0) :
    strcasecmp s [] ≠ 0 := by
  obtain ⟨c, s, rfl⟩ := List.exists_cons_of_ne_nil hne
  have hc := tolower_ne_zero (hs c List.mem_cons_self)
  intro hzero
  exact hc (UInt8.toNat_inj.mp (Int.ofNat_inj.mp hzero))

/-- A number that stands for an order by its sign. -/
structure SignOf (r : Int) (below same above : Prop) : Prop where
  neg_iff : r < 0 ↔ below
  zero_iff : r = 0 ↔ same
  pos_iff : 0 < r ↔ above

section SignOf

variable {r : Int} {below same above below' same' above' : Prop}

theorem SignOf.congr (h : SignOf r below same above) (hb : below ↔ below') (hs : same ↔ same')
    (ha : above ↔ above') : SignOf r below' same' above' :=
  ⟨h.neg_iff.trans hb, h.zero_iff.trans hs, h.pos_iff.trans ha⟩

/-- Two comparisons of opposite sign, of the same things in the two orders. -/
theorem SignOf.swap_iff {r' : Int} (hneg : r < 0 ↔ 0 < r') (hzero : r = 0 ↔ r' = 0)
    (hpos : 0 < r ↔ r' < 0) : SignOf r below same above ↔ SignOf r' above same below := by
  constructor
  · exact fun h => ⟨hpos.symm.trans h.pos_iff, hzero.symm.trans h.zero_iff,
      hneg.symm.trans h.neg_iff⟩
  · exact fun h => ⟨hneg.trans h.pos_iff, hzero.trans h.zero_iff, hpos.trans h.neg_iff⟩

theorem signOf_iff_neg (hb : below) (hs : ¬ same) (ha : ¬ above) :
    SignOf r below same above ↔ r < 0 := by
  constructor
  · exact fun h => h.neg_iff.mpr hb
  · exact fun h => ⟨iff_of_true h hb, iff_of_false (by omega) hs, iff_of_false (by omega) ha⟩

theorem signOf_iff_zero (hb : ¬ below) (hs : same) (ha : ¬ above) :
    SignOf r below same above ↔ r = 0 := by
  constructor
  · exact fun h => h.zero_iff.mpr hs
  · exact fun h => ⟨iff_of_false (by omega) hb, iff_of_true h hs, iff_of_false (by omega) ha⟩

theorem signOf_iff_pos (hb : ¬ below) (hs : ¬ same) (ha : above) :
    SignOf r below same above ↔ 0 < r := by
  constructor
  · exact fun h => h.pos_iff.mpr ha
  · exact fun h => ⟨iff_of_false (by omega) hb, iff_of_false (by omega) hs, iff_of_true h ha⟩

end SignOf

/-- `strcmp` is the order of the bytes. -/
theorem strcmp_signOf : ∀ {s t : List UInt8}, (∀ c ∈ s, c ≠ 0) → (∀ c ∈ t, c ≠ 0) →
    SignOf (strcmp s t) (s < t) (s = t) (t < s)
  | [], [], _, _ => ⟨by simp [strcmp], by simp [strcmp], by simp [strcmp]⟩
  | [], b :: t, _, ht => by
      have hb : 0 < b.toNat := Nat.pos_of_ne_zero fun h =>
        ht b List.mem_cons_self (UInt8.toNat_inj.mp h)
      rw [strcmp]
      exact ⟨iff_of_true (by omega) (List.nil_lt_cons b t), iff_of_false (by omega) nofun,
        iff_of_false (by omega) (List.not_lt_nil _)⟩
  | a :: s, [], hs, _ => by
      have ha : 0 < a.toNat := Nat.pos_of_ne_zero fun h =>
        hs a List.mem_cons_self (UInt8.toNat_inj.mp h)
      rw [strcmp]
      exact ⟨iff_of_false (by omega) (List.not_lt_nil _), iff_of_false (by omega) nofun,
        iff_of_true (by omega) (List.nil_lt_cons a s)⟩
  | a :: s, b :: t, hs, ht => by
      rw [strcmp]
      split
      · rename_i heq
        subst heq
        obtain ⟨hneg, hzero, hpos⟩ := strcmp_signOf (List.forall_mem_cons.mp hs).2
          (List.forall_mem_cons.mp ht).2
        refine ⟨?_, ?_, ?_⟩
        · simp [hneg]
        · simp [hzero]
        · simp [hpos]
      · rename_i hne
        have hnat : a.toNat ≠ b.toNat := fun h => hne (UInt8.toNat_inj.mp h)
        refine ⟨?_, ?_, ?_⟩
        · simp only [List.cons_lt_cons_iff, hne, false_and, or_false, UInt8.lt_iff_toNat_lt]
          omega
        · refine iff_of_false (by omega) fun h => hne (List.cons.inj h).1
        · simp only [List.cons_lt_cons_iff, Ne.symm hne, false_and, or_false,
            UInt8.lt_iff_toNat_lt]
          omega

/-! ## Searching -/

theorem strstr_eq_some_iff {pat : List UInt8} : ∀ {s : List UInt8} {p : Nat},
    strstr pat s = some p ↔
      p ≤ s.length ∧ pat <+: s.drop p ∧ ∀ q < p, ¬ pat <+: s.drop q
  | [], p => by
      cases pat with
      | nil =>
          simp only [strstr, List.isEmpty_nil, if_true, Option.some.injEq]
          constructor
          · rintro rfl
            exact ⟨Nat.le_refl _, List.nil_prefix, fun q hq => absurd hq (Nat.not_lt_zero q)⟩
          · rintro ⟨hp, -, -⟩
            exact (Nat.le_zero.mp hp).symm
      | cons a pat =>
          simp [strstr]
  | c :: s, p => by
      rw [strstr]
      split
      · rename_i h
        have h0 : pat <+: (c :: s).drop 0 := List.isPrefixOf_iff_prefix.mp h
        constructor
        · intro hp
          cases hp
          exact ⟨Nat.zero_le _, h0, fun q hq => absurd hq (Nat.not_lt_zero q)⟩
        · rintro ⟨-, -, hmin⟩
          cases p with
          | zero => rfl
          | succ p => exact absurd h0 (hmin 0 (Nat.succ_pos p))
      · rename_i h
        have h0 : ¬ pat <+: (c :: s).drop 0 := fun hp => h (List.isPrefixOf_iff_prefix.mpr hp)
        simp only [Option.map_eq_some_iff, strstr_eq_some_iff]
        constructor
        · rintro ⟨p', ⟨hle, hpre, hmin⟩, rfl⟩
          refine ⟨Nat.succ_le_succ hle, hpre, fun q hq => ?_⟩
          cases q with
          | zero => exact h0
          | succ q => exact hmin q (Nat.lt_of_succ_lt_succ hq)
        · rintro ⟨hle, hpre, hmin⟩
          cases p with
          | zero => exact absurd hpre h0
          | succ p =>
              exact ⟨p, ⟨Nat.le_of_succ_le_succ hle, hpre,
                fun q hq => hmin (q + 1) (Nat.succ_lt_succ hq)⟩, rfl⟩

/-- A prefix in which no match starts is skipped. -/
theorem strstr_append {pat : List UInt8} : ∀ {a b : List UInt8},
    (∀ q < a.length, ¬ pat <+: (a ++ b).drop q) →
    strstr pat (a ++ b) = (strstr pat b).map (· + a.length)
  | [], b, _ => by cases h : strstr pat b <;> simp [h]
  | c :: a, b, h => by
      have h0 : ¬ pat.isPrefixOf (c :: (a ++ b)) = true := fun hp =>
        h 0 (Nat.succ_pos _) (List.isPrefixOf_iff_prefix.mp hp)
      have ih := strstr_append (a := a) (b := b) fun q hq => h (q + 1) (Nat.succ_lt_succ hq)
      rw [List.cons_append, strstr, if_neg h0, ih, Option.map_map, List.length_cons]
      rfl

/-- The bytes of a match, one by one. -/
theorem getElem?_of_match {pat s : List UInt8} {q i : Nat} (h : pat <+: s.drop q)
    (hi : i < pat.length) : s[q + i]? = pat[i]? := by
  obtain ⟨t, ht⟩ := h
  rw [← List.getElem?_drop, ← ht, List.getElem?_append_left hi]

/-- A match at the very start. -/
theorem strstr_of_prefix {pat s : List UInt8} (h : pat <+: s) : strstr pat s = some 0 :=
  strstr_eq_some_iff.mpr ⟨Nat.zero_le _, h, fun q hq => absurd hq (Nat.not_lt_zero q)⟩

/-- Searching for one byte. -/
theorem strstr_singleton {c : UInt8} {a : List UInt8} (h : c ∉ a) (b : List UInt8) :
    strstr [c] (a ++ c :: b) = some a.length := by
  have hskip : ∀ q < a.length, ¬ [c] <+: (a ++ c :: b).drop q := by
    intro q hq hp
    have hget := getElem?_of_match hp (i := 0) (Nat.succ_pos 0)
    rw [Nat.add_zero, List.getElem?_append_left hq] at hget
    exact h (List.mem_of_getElem? hget)
  rw [strstr_append hskip, strstr_of_prefix (⟨b, rfl⟩ : [c] <+: c :: b)]
  simp

/-! ## Two bytes that do not stand together -/

/-- Nowhere is `d` the next byte after `c`. -/
def Apart (c d : UInt8) (l : List UInt8) : Prop := l.IsChain fun a b => ¬ (a = c ∧ b = d)

instance (c d : UInt8) (l : List UInt8) : Decidable (Apart c d l) :=
  inferInstanceAs (Decidable (l.IsChain _))

section Apart

variable {c d : UInt8}

theorem apart_of_notMem {l : List UInt8} (h : d ∉ l) : Apart c d l := by
  apply List.Pairwise.isChain
  apply List.pairwise_of_forall_mem_list
  rintro a - b hb ⟨-, rfl⟩
  exact h hb

/-- Pieces that do not begin with `d` can be put behind one another. -/
theorem Apart.flatten {ps : List (List UInt8)}
    (h : ∀ p ∈ ps, Apart c d p ∧ p.head? ≠ some d) :
    Apart c d ps.flatten ∧ ps.flatten.head? ≠ some d := by
  induction ps with
  | nil => exact ⟨List.IsChain.nil, Option.some_ne_none _ ∘ Eq.symm⟩
  | cons p ps ih =>
      obtain ⟨⟨hp, hhead⟩, hps⟩ := List.forall_mem_cons.mp h
      obtain ⟨hrest, hnext⟩ := ih hps
      rw [List.flatten_cons]
      constructor
      · refine List.isChain_append.mpr ⟨hp, hrest, ?_⟩
        rintro a - b hb ⟨-, rfl⟩
        exact hnext (Option.mem_def.mp hb)
      · cases p with
        | nil => exact hnext
        | cons a p => exact hhead

/-- A pattern with `d` after `c` is not found where they would have to be in such a part. -/
theorem Apart.not_match {front pat : List UInt8} (h : Apart c d front) {i : Nat}
    (hc : pat[i]? = some c) (hd : pat[i + 1]? = some d) {q : Nat} (hq : q + i + 1 < front.length)
    (rest : List UInt8) : ¬ pat <+: (front ++ rest).drop q := by
  intro hmatch
  obtain ⟨hi, -⟩ := List.getElem?_eq_some_iff.mp hd
  have hfst := getElem?_of_match hmatch (i := i) (by omega)
  have hsnd := getElem?_of_match hmatch (i := i + 1) hi
  rw [List.getElem?_append_left (by omega), hc] at hfst
  rw [← Nat.add_assoc, List.getElem?_append_left hq, hd] at hsnd
  have hchain := List.isChain_iff_getElem.mp h (q + i) hq
  exact hchain ⟨(List.getElem?_eq_some_iff.mp hfst).2, (List.getElem?_eq_some_iff.mp hsnd).2⟩

theorem Apart.strstr_eq_none {s pat : List UInt8} (h : Apart c d s) {i : Nat}
    (hc : pat[i]? = some c) (hd : pat[i + 1]? = some d) : strstr pat s = none := by
  rw [Option.eq_none_iff_forall_ne_some]
  intro p hp
  obtain ⟨-, hmatch, -⟩ := strstr_eq_some_iff.mp hp
  obtain ⟨hi, -⟩ := List.getElem?_eq_some_iff.mp hd
  have hlen := hmatch.length_le
  rw [List.length_drop] at hlen
  rw [← List.append_nil s] at hmatch
  exact h.not_match hc hd (by omega) [] hmatch

end Apart

end CString
