/-
# `Convd.ParseParts` — the parts of a time stamp

What each step of `cstr_parse_timestamp` takes out of the string it stands at: the zone, what is
between quotes, and the parts between separators.  A step either refuses the string or finds it
in the form it is made for, and then its result is given.
-/
import Convd.Datetime

namespace Convd

open CString Block Decimal

@[simp] theorem orFault_some {α : Type} (a : α) : orFault (some a) = .ok a := rfl

@[simp] theorem run_ok_bind {α β : Type} (a : α) (f : α → Run β) :
    ((Except.ok a : Run α) >>= f) = f a := rfl

@[simp] theorem run_error_bind {α β : Type} (e : Stop) (f : α → Run β) :
    ((Except.error e : Run α) >>= f) = Except.error e := rfl

variable {b : Block} {p : Nat} {s t : List UInt8}

/-! ## The zone -/

/-- `allAt` on a list that a NUL follows. -/
def allOf : List UInt8 → List (UInt8 → Bool) → Bool
  | _, [] => true
  | [], f :: _ => f 0
  | c :: s, f :: fs => f c && allOf s fs

/-- No test but the last lets a NUL pass. -/
theorem allAt_eq {fs : List (UInt8 → Bool)} (h : StrAt b p s)
    (hfs : ∀ f ∈ fs.dropLast, f 0 = false) : allAt b p fs = some (allOf s fs) := by
  induction fs generalizing p s with
  | nil => cases s <;> rfl
  | cons f fs ih =>
      have hget := h.getElem? (Nat.zero_le _)
      rw [Nat.add_zero] at hget
      rw [allAt, hget, Option.bind_eq_bind, Option.bind_some]
      cases s with
      | nil =>
          rw [allOf]
          cases fs with
          | nil => cases hf : f 0 <;> simp [hf, allAt]
          | cons g fs =>
              have hf : f 0 = false := hfs f List.mem_cons_self
              simp [hf]
      | cons c s =>
          have hrest : ∀ g ∈ fs.dropLast, g 0 = false := by
            intro g hg
            cases fs with
            | nil => cases hg
            | cons g' fs => exact hfs g (List.mem_cons_of_mem _ hg)
          have htail : StrAt b (p + 1) s := h.behind (u := [])
          have ih := ih htail hrest
          rw [allOf, List.getElem?_cons_zero, Option.getD_some]
          cases hf : f c <;> simp [ih]

/-- The tests for what a zone looks like behind its sign. -/
def zoneTests : List (UInt8 → Bool) := [isdigit, isdigit, isColon, isdigit, isdigit, (· == 0)]

/-- Where the zone begins. -/
def zoneIdx (text : List UInt8) : Option Nat :=
  text.idxOf? 43 <|> text.idxOf? 69 <|> text.idxOf? 87 <|>
    (lastIdx 45 text).filter fun i => allOf (text.drop (i + 1)) [(· != 0), (· != 0), isColon]

/-- What a zone is worth; -1 if it is none. -/
def zoneValue : List UInt8 → Int
  | [] => -1
  | c :: z =>
      let sign : Int := if c = 43 ∨ c = 69 then 1 else if c = 45 ∨ c = 87 then -1 else 0
      if sign ≠ 0 ∧ allOf z zoneTests ∧ atoi (z.take 2) ≤ 23 ∧ atoi ((z.drop 3).take 2) ≤ 59 then
        (atoi (z.take 2) * 100 + atoi ((z.drop 3).take 2)) * sign
      else -1

/-- A text without its zone, and the zone; none if it is refused for its zone. -/
def zoneOf (text : List UInt8) : Option (List UInt8 × Int) :=
  match zoneIdx text with
  | none => some (text, -1)
  | some i =>
      if zoneValue (text.drop i) = -1 then none else some (text.take i, zoneValue (text.drop i))

theorem findZone_eq (h : StrAt b p s) : findZone b p = some ((zoneIdx s).map (p + ·)) := by
  rw [findZone, zoneIdx, h.strchr_eq (by decide), h.strchr_eq (by decide), h.strchr_eq (by decide),
    h.strrchr_eq (by decide)]
  cases s.idxOf? 43 with
  | some i => rfl
  | none =>
      cases s.idxOf? 69 with
      | some i => rfl
      | none =>
          cases s.idxOf? 87 with
          | some i => rfl
          | none =>
              cases hlast : lastIdx 45 s with
              | none => rfl
              | some i =>
                  have hbehind := h.drop (lt_of_lastIdx hlast)
                  have hat := @allAt_eq _ _ _ [(· != 0), (· != 0), isColon] hbehind (by simp)
                  simp only [Option.map_none, Option.map_some, Option.bind_eq_bind,
                    Option.bind_some, Nat.add_assoc, hat]
                  cases hzone : allOf (s.drop (i + 1)) [(· != 0), (· != 0), isColon] <;>
                    simp [Option.filter, hzone]

theorem isColon_zero : isColon 0 = false := by decide

theorem length_of_zoneTests {z : List UInt8} (hz : 0 ∉ z) (h : allOf z zoneTests = true) :
    z.length = 5 := by
  rcases z with _ | ⟨c₁, _ | ⟨c₂, _ | ⟨c₃, _ | ⟨c₄, _ | ⟨c₅, _ | ⟨c₆, z⟩⟩⟩⟩⟩⟩
  · simp [allOf, zoneTests, isdigit_zero] at h
  · simp [allOf, zoneTests, isdigit_zero] at h
  · simp [allOf, zoneTests, isColon_zero] at h
  · simp [allOf, zoneTests, isdigit_zero] at h
  · simp [allOf, zoneTests, isdigit_zero] at h
  · rfl
  · have hzero : c₆ = 0 := by
      simp only [allOf, zoneTests, Bool.and_eq_true, beq_iff_eq] at h
      exact h.2.2.2.2.2.1
    exact absurd (hzero ▸ by simp) hz

theorem cstrParseTimezone_eq (h : StrAt b p s) : cstrParseTimezone b p = some (zoneValue s) := by
  have hget := h.getElem? (Nat.zero_le _)
  rw [Nat.add_zero] at hget
  rw [cstrParseTimezone, hget, Option.bind_eq_bind, Option.bind_some]
  cases s with
  | nil => rfl
  | cons c z =>
      rw [List.getElem?_cons_zero, Option.getD_some, zoneValue]
      have hz : StrAt b (p + 1) z := h.behind (u := [])
      have hat := @allAt_eq _ _ _ zoneTests hz (by simp [zoneTests, isdigit_zero, isColon_zero])
      generalize (if c = 43 ∨ c = 69 then (1 : Int) else if c = 45 ∨ c = 87 then -1 else 0) = sign
      dsimp only
      by_cases hsign : sign = 0
      · rw [if_pos hsign, if_neg (by simp [hsign])]
      · rw [if_neg hsign]
        change (allAt b (p + 1) zoneTests).bind _ = _
        rw [hat, Option.bind_some]
        cases htests : allOf z zoneTests with
        | false => simp
        | true =>
            have hlen := length_of_zoneTests hz.1 htests
            have htake : ∀ i, i + 2 ≤ z.length →
                (b.drop (p + 1 + i)).take 2 = (z.drop i).take 2 := by
              intro i hi
              obtain ⟨-, rest, hdrop⟩ := hz.drop (Nat.le_of_add_right_le hi)
              rw [hdrop, List.take_append_of_le_length]
              rw [List.length_drop]
              omega
            have hhour := htake 0 (by omega)
            have hmin := htake 3 (by omega)
            rw [Nat.add_zero, List.drop_zero] at hhour
            rw [Nat.add_assoc] at hmin
            simp only [hhour, hmin, if_true]
            by_cases hh : atoi (z.take 2) > 23
            · rw [if_pos hh, if_neg fun hall => absurd hall.2.2.1 (not_le.mpr hh)]
            · by_cases hm : atoi ((z.drop 3).take 2) > 59
              · rw [if_neg hh, if_pos hm, if_neg fun hall => absurd hall.2.2.2 (not_le.mpr hm)]
              · rw [if_neg hh, if_neg hm, if_pos ⟨hsign, trivial, not_lt.mp hh, not_lt.mp hm⟩]

theorem zoneIdx_le {i : Nat} (h : zoneIdx s = some i) : i ≤ s.length := by
  apply Nat.le_of_lt
  rw [zoneIdx] at h
  cases hplus : s.idxOf? 43 with
  | some j => exact lt_of_idxOf? (hplus.trans (by simpa [hplus] using h))
  | none =>
      cases heast : s.idxOf? 69 with
      | some j => exact lt_of_idxOf? (heast.trans (by simpa [hplus, heast] using h))
      | none =>
          cases hwest : s.idxOf? 87 with
          | some j => exact lt_of_idxOf? (hwest.trans (by simpa [hplus, heast, hwest] using h))
          | none =>
              have hminus : lastIdx 45 s = some i := by
                rw [hplus, heast, hwest] at h
                exact (Option.filter_eq_some_iff.mp h).1
              exact lt_of_lastIdx hminus

/-- The zone is cut off, or the text is refused for it. -/
theorem cutZone_eq (h : StrAt b p s) :
    (zoneOf s = none ∧ cutZone b p = .error .reject) ∨
      ∃ body tz b', zoneOf s = some (body, tz) ∧ cutZone b p = .ok (tz, b') ∧ StrAt b' p body := by
  rw [cutZone, findZone_eq h, orFault_some, run_ok_bind, zoneOf]
  cases hidx : zoneIdx s with
  | none => exact .inr ⟨s, -1, b, rfl, rfl, h⟩
  | some i =>
      have hi := zoneIdx_le hidx
      have hlen := List.length_take_of_le hi
      simp only [Option.map_some, cstrParseTimezone_eq (h.drop hi), orFault_some, run_ok_bind]
      by_cases hvalue : zoneValue (s.drop i) = -1
      · rw [if_pos hvalue, if_pos hvalue]
        exact .inl ⟨rfl, rfl⟩
      · rw [if_neg hvalue, if_neg hvalue, h.put_eq hi, orFault_some, run_ok_bind]
        refine .inr ⟨s.take i, _, _, rfl, rfl, ?_⟩
        have hcut := StrAt.cut_left ((List.take_append_drop i s).symm ▸ h)
        rwa [hlen] at hcut

/-! ## Quotes -/

/-- What is read of a text: all of it, or what is between the outer quotes. -/
inductive Unquoted : List UInt8 → Bool → List UInt8 → Prop where
  | plain {m : List UInt8} : 39 ∉ m → Unquoted m false m
  | quoted {u m v : List UInt8} : 39 ∉ u → 39 ∉ v → Unquoted (u ++ 39 :: (m ++ 39 :: v)) true m

/-- What is taken for its length.  Between quotes it is a difference stored in an `int`. -/
def readLen (quoted : Bool) (n : Nat) : Int :=
  if quoted then Int.bmod ((n : Int) - 1) (2 ^ 32) + 1 else (min n 30 : Nat)

theorem unquote_eq {q : Bool} {m : List UInt8} (h : StrAt b p s) (hq : Unquoted s q m) :
    ∃ str b', unquote b p = .ok (str, readLen q m.length, b') ∧ StrAt b' str m := by
  cases hq with
  | plain hs =>
      refine ⟨p, b, ?_, h⟩
      have hlen : cstrLengthAt b p 30 = some (readLen false s.length) := by
        have hsize : toSizeT 30 = 30 := rfl
        have hmin : min s.length 30 < 2 ^ 31 := by omega
        rw [cstrLengthAt, if_neg (by decide), hsize, h.strnlen_eq, Option.map_some,
          toInt_of_lt hmin]
        rfl
      rw [unquote, h.strchr_notMem hs (by decide), h.strrchr_notMem hs (by decide), orFault_some,
        run_ok_bind, run_ok_bind]
      dsimp only
      rw [hlen, orFault_some, run_ok_bind]
  | quoted hu hv =>
      rename_i u v
      have hlast : StrAt b p ((u ++ 39 :: m) ++ 39 :: v) := by simpa using h
      have hsecond : p + (u ++ 39 :: m).length = p + u.length + 1 + m.length := by
        rw [List.length_append, List.length_cons]
        omega
      have hput : put b (p + u.length) 0 = some (b.set (p + u.length) 0) :=
        h.put_eq (by simp) 0
      have hm := h.cut_right
      have hput' := hm.put_eq (i := m.length) (by simp) 0
      have hlen : ((p + u.length + 1 + m.length : Nat) : Int) - 1 - ((p + u.length : Nat) + 1)
          = (m.length : Int) - 1 := by omega
      refine ⟨p + u.length + 1, _, ?_, hm.cut_left⟩
      rw [unquote, h.strchr_mem hu, hlast.strrchr_mem hv, orFault_some, orFault_some,
        run_ok_bind, run_ok_bind, hsecond]
      dsimp only
      rw [hput, orFault_some, run_ok_bind, hput', orFault_some, run_ok_bind, hlen]
      rfl

/-- A text with one quote is given a length that no layout has. -/
theorem unquote_cases (h : StrAt b p s) :
    (∃ q m, Unquoted s q m) ∨ ∃ str b', unquote b p = .ok (str, -1, b') := by
  by_cases hs : 39 ∈ s
  · obtain ⟨u, t, rfl, hu⟩ := List.eq_append_cons_of_mem hs
    by_cases ht : 39 ∈ t
    · obtain ⟨m, v, rfl, hv⟩ := exists_last ht
      exact .inl ⟨true, m, .quoted hu hv⟩
    · refine .inr ⟨p + u.length + 1, (b.set (p + u.length) 0).set (p + u.length) 0, ?_⟩
      have hput : put b (p + u.length) 0 = some (b.set (p + u.length) 0) :=
        h.put_eq (by simp) 0
      have hput' := h.cut_left.put_eq (Nat.le_refl _) 0
      have hlen : ((p + u.length : Nat) : Int) - 1 - ((p + u.length : Nat) + 1) = -2 := by omega
      rw [unquote, h.strchr_mem hu, h.strrchr_mem ht, orFault_some, run_ok_bind, run_ok_bind]
      dsimp only
      rw [hput, orFault_some, run_ok_bind, hput', orFault_some, run_ok_bind, hlen]
      rfl
  · exact .inl ⟨false, s, .plain hs⟩

/-! ## Parts between separators -/

/-- `xx-yy-zz` and what follows, no other separator being there. -/
structure Parts (sep : UInt8) (n : Nat) (s x y w r : List UInt8) : Prop where
  text : s = x ++ sep :: (y ++ sep :: (w ++ r))
  first : x.length = n
  second : y.length = 2
  third : w.length = 2
  head : sep ∉ x
  tail : sep ∉ w ++ r

section Parts

variable {sep : UInt8} {n : Nat} {x y w r : List UInt8}

theorem findSeps_eq (h : StrAt b p s) (hs : Parts sep n s x y w r) :
    findSeps b p sep n = .ok (p + n, p + n + 3) := by
  obtain ⟨rfl, rfl, hy, -, hhead, htail⟩ := hs
  have hlast : StrAt b p ((x ++ sep :: y) ++ sep :: (w ++ r)) := by simpa using h
  have hlen : p + (x ++ sep :: y).length = p + x.length + 3 := by
    rw [List.length_append, List.length_cons, hy]
    omega
  rw [findSeps, h.strchr_mem hhead, hlast.strrchr_mem htail, orFault_some, orFault_some,
    run_ok_bind, run_ok_bind, hlen]
  exact if_pos ⟨rfl, rfl⟩

theorem findSeps_cases (h : StrAt b p s) (hsep : sep ≠ 0) (hn : n + 6 ≤ s.length) :
    findSeps b p sep n = .error .reject ∨ ∃ x y w r, Parts sep n s x y w r := by
  by_cases hs : sep ∈ s
  · obtain ⟨x, t, hx, hhead⟩ := List.eq_append_cons_of_mem hs
    obtain ⟨u, v, hv, htail⟩ := exists_last hs
    by_cases hat : p + x.length = p + n ∧ p + u.length = p + x.length + 3
    · refine .inr ?_
      have hsplit : x ++ (sep :: t) = u ++ (sep :: v) := hx.symm.trans hv
      rcases List.append_eq_append_iff.mp hsplit with ⟨a, hu, ht⟩ | ⟨a, hu, -⟩
      · have halen : a.length = 3 := by
          have := congrArg List.length hu
          rw [List.length_append] at this
          omega
        obtain ⟨c, y, rfl⟩ := List.exists_cons_of_length_pos (by omega : 0 < a.length)
        rw [List.cons_append] at ht
        obtain ⟨rfl, rfl⟩ := List.cons.inj ht
        have hvlen : 2 ≤ v.length := by
          have := congrArg List.length hv
          simp only [List.length_append, List.length_cons] at this
          omega
        refine ⟨x, y, v.take 2, v.drop 2, ?_, by omega, Nat.succ.inj halen,
          List.length_take_of_le hvlen, hhead, ?_⟩
        · rw [List.take_append_drop]
          exact hx
        · rwa [List.take_append_drop]
      · have := congrArg List.length hu
        rw [List.length_append] at this
        omega
    · refine .inl ?_
      have hfirst := (hx ▸ h).strchr_mem hhead
      have hlast := (hv ▸ h).strrchr_mem htail
      rw [findSeps, hfirst, hlast, orFault_some, orFault_some, run_ok_bind, run_ok_bind]
      exact if_neg hat
  · refine .inl ?_
    rw [findSeps, h.strchr_notMem hs hsep, h.strrchr_notMem hs hsep]
    rfl

/-- Cutting at both separators leaves the three parts. -/
theorem cutParts (h : StrAt b p s) (hs : Parts sep n s x y w r) :
    ∃ b₁ b', put b (p + n) 0 = some b₁ ∧ put b₁ (p + n + 3) 0 = some b' ∧ StrAt b' p x ∧
      StrAt b' (p + n + 1) y ∧ StrAt b' (p + n + 3 + 1) (w ++ r) ∧
      ∀ {p' : Nat} {t : List UInt8}, p + s.length < p' → StrAt b p' t → StrAt b' p' t := by
  obtain ⟨rfl, rfl, hy, -, -, -⟩ := hs
  have hlen : p + x.length + 1 + y.length = p + x.length + 3 := by omega
  have hput := h.put_eq (i := x.length) (by simp) 0
  have hright := h.cut_right
  have hput' := hright.put_eq (i := y.length) (by simp) 0
  rw [hlen] at hput'
  refine ⟨_, _, hput, hput', ?_, ?_, ?_, ?_⟩
  · exact h.cut_left.set_of_outside (.inr (by omega)) 0
  · have hcut := hright.cut_left
    rwa [hlen] at hcut
  · have hcut := hright.cut_right
    rwa [hlen] at hcut
  · intro p' t hp' ht
    simp only [List.length_append, List.length_cons, hy] at hp'
    exact (ht.set_of_outside (.inl (by omega)) 0).set_of_outside (.inl (by omega)) 0

theorem copyField_eq (h : StrAt b p s) (hn : n ≤ s.length) :
    copyField n b p = some (s.take n ++ [0]) := by
  have hlen : (s.take n).length = n := List.length_take_of_le hn
  obtain ⟨-, rest, hdrop⟩ := id h
  have htake : (b.drop p).take n = s.take n := by
    rw [hdrop, List.take_append_of_le_length hn]
  have hput : putAll (zeros n) 0 (s.take n ++ [0]) = some (s.take n ++ [0]) := by
    have hsize : (zeros n).length = (s.take n ++ [0]).length := by
      rw [zeros, List.length_append, List.length_append, List.length_replicate, hlen]
    rw [putAll, if_pos (by omega), Nat.zero_add, ← hsize, List.drop_length, List.take_zero]
    simp
  rw [copyField, h.strnlen_eq, Nat.min_eq_right hn, Option.bind_eq_bind, Option.bind_some, htake,
    snprintfChkdV1At, if_neg (Nat.succ_ne_zero n), Nat.add_sub_cancel,
    List.take_of_length_le (Nat.le_of_eq hlen), hput]
  rfl

theorem copyParts_eq {n : Nat} (hx : StrAt b p x) (hy : StrAt b (p + n + 1) y)
    (hw : StrAt b (p + n + 3 + 1) (w ++ r)) (hxn : x.length = n) (hy2 : y.length = 2)
    (hw2 : w.length = 2) :
    copyParts b p (p + n) (p + n + 3) n = some (x ++ [0], y ++ [0], w ++ [0]) := by
  have hx' := copyField_eq hx (Nat.le_of_eq hxn.symm)
  have hy' := copyField_eq hy (Nat.le_of_eq hy2.symm)
  have hw' := copyField_eq (n := 2) hw (by rw [List.length_append]; omega)
  rw [List.take_of_length_le (Nat.le_of_eq hxn)] at hx'
  rw [List.take_of_length_le (Nat.le_of_eq hy2)] at hy'
  rw [List.take_left' hw2] at hw'
  rw [copyParts, hx', hy', hw']
  rfl

/-- The date, when it has the form of one; a string behind stays. -/
theorem parseDate_eq (h : StrAt b p s) (hs : Parts 45 4 s x y w r) :
    ∃ b', parseDate b p = .ok ((x ++ [0], y ++ [0], w ++ [0]), b') ∧
      ∀ {p' : Nat} {t : List UInt8}, p + s.length < p' → StrAt b p' t → StrAt b' p' t := by
  obtain ⟨b₁, b', hput, hput', hx, hy, hw, hkeep⟩ := cutParts h hs
  have hcopy := copyParts_eq hx hy hw hs.first hs.second hs.third
  refine ⟨b', ?_, hkeep⟩
  rw [parseDate, findSeps_eq h hs, run_ok_bind]
  dsimp only
  rw [hput, orFault_some, run_ok_bind, hput', orFault_some, run_ok_bind, hcopy, orFault_some,
    run_ok_bind]

theorem parseDate_cases (h : StrAt b p s) (hlen : 10 ≤ s.length) :
    parseDate b p = .error .reject ∨ ∃ x y w r, Parts 45 4 s x y w r := by
  refine (findSeps_cases h (by decide) hlen).imp_left fun hreject => ?_
  rw [parseDate, hreject, run_error_bind]

theorem parseClock_eq (h : StrAt b p s) (hs : Parts 58 2 s x y w r) :
    parseClock b p = .ok (x ++ [0], y ++ [0], w ++ [0]) := by
  obtain ⟨b₁, b', hput, hput', hx, hy, hw, -⟩ := cutParts h hs
  have hcopy := copyParts_eq hx hy hw hs.first hs.second hs.third
  rw [parseClock, findSeps_eq h hs, run_ok_bind]
  dsimp only
  rw [hput, orFault_some, run_ok_bind, hput', orFault_some, run_ok_bind, hcopy, orFault_some]

theorem parseClock_cases (h : StrAt b p s) (hlen : 8 ≤ s.length) :
    parseClock b p = .error .reject ∨ ∃ x y w r, Parts 58 2 s x y w r := by
  refine (findSeps_cases h (by decide) hlen).imp_left fun hreject => ?_
  rw [parseClock, hreject, run_error_bind]

/-- What stands at the last separator. -/
theorem Parts.strAt_last (hs : Parts sep n s x y w r) (h : StrAt b p s) :
    StrAt b (p + n + 3) (sep :: (w ++ r)) := by
  obtain ⟨rfl, rfl, hy, -, -, -⟩ := hs
  have hlen : p + x.length + 1 + y.length = p + x.length + 3 := by omega
  exact hlen ▸ h.behind.tail

theorem copyMsec_eq {m : List UInt8} (h : StrAt b p (m ++ r)) (hm : m.length = 3) :
    copyMsec b p = some (m ++ [0]) := by
  obtain ⟨c₀, c₁, c₂, rfl⟩ := List.length_eq_three.mp hm
  have hne : ∀ c ∈ [c₀, c₁, c₂], c ≠ 0 := by
    rintro c hc rfl
    exact h.1 (List.mem_append_left _ hc)
  have hget : ∀ i, i < 3 → b[p + i]? = [c₀, c₁, c₂][i]? := by
    intro i hi
    rw [h.getElem? (by rw [List.length_append, hm]; omega),
      List.getElem?_append_left (Nat.lt_of_lt_of_eq hi hm.symm)]
    rw [List.getElem?_eq_getElem (Nat.lt_of_lt_of_eq hi hm.symm), Option.getD_some]
  have h₀ := hget 0 (by decide)
  have h₁ := hget 1 (by decide)
  have h₂ := hget 2 (by decide)
  rw [Nat.add_zero] at h₀
  simp [copyMsec, h₀, h₁, h₂, hne c₀, hne c₁, hne c₂]

theorem parseClockMsec_eq {m : List UInt8} (h : StrAt b p s)
    (hs : Parts 58 2 s x y w (46 :: (m ++ r))) (hdot : 46 ∉ w) (hm : m.length = 3) :
    parseClockMsec b p = .ok ((x ++ [0], y ++ [0], w ++ [0]), m ++ [0]) := by
  obtain ⟨b₁, b', hput, hput', hx, hy, hw, -⟩ := cutParts h hs
  have hlast : StrAt b (p + 2 + 3) ((58 :: w) ++ 46 :: (m ++ r)) := hs.strAt_last h
  have hfind := hlast.strchr_mem (List.not_mem_cons_of_ne_of_not_mem (by decide) hdot)
  have hat : p + 2 + 3 + (58 :: w).length = p + 2 + 3 + 3 := by rw [List.length_cons, hs.third]
  have hat' : p + 2 + 3 + 1 + w.length = p + 2 + 3 + 3 := by rw [hs.third]
  have hput'' := hw.put_eq (i := w.length) (by simp) 0
  have hm' := hw.cut_right
  have hw' : StrAt (b'.set (p + 2 + 3 + 1 + w.length) 0) (p + 2 + 3 + 1) (w ++ []) := by
    simpa using hw.cut_left
  have hx' := hx.set_of_outside (i := p + 2 + 3 + 1 + w.length) (.inr (by rw [hs.first]; omega)) 0
  have hy' := hy.set_of_outside (i := p + 2 + 3 + 1 + w.length) (.inr (by rw [hs.second]; omega)) 0
  have hcopy := copyParts_eq hx' hy' hw' hs.first hs.second hs.third
  have hmsec := copyMsec_eq hm' hm
  rw [hat] at hfind
  rw [hat'] at hput'' hcopy hmsec
  rw [parseClockMsec, findSeps_eq h hs, run_ok_bind]
  dsimp only
  rw [hfind, orFault_some, run_ok_bind]
  dsimp only
  rw [if_neg (not_not.mpr rfl), hput, orFault_some, run_ok_bind, hput', orFault_some, run_ok_bind,
    hput'', orFault_some, run_ok_bind, hcopy, orFault_some, run_ok_bind, hmsec, orFault_some,
    run_ok_bind]

theorem parseClockMsec_cases (h : StrAt b p s) (hlen : 12 ≤ s.length) :
    parseClockMsec b p = .error .reject ∨ ∃ x y w m r, Parts 58 2 s x y w (46 :: (m ++ r)) ∧
      46 ∉ w ∧ m.length = 3 := by
  rcases findSeps_cases (n := 2) h (by decide : (58 : UInt8) ≠ 0) (by omega) with
    hreject | ⟨x, y, w, r, hs⟩
  · exact .inl (by rw [parseClockMsec, hreject, run_error_bind])
  · have hlast := hs.strAt_last h
    have hrlen : 4 ≤ r.length := by
      have := congrArg List.length hs.text
      simp only [List.length_append, List.length_cons, hs.first, hs.second, hs.third] at this
      omega
    have hrefused : (∀ r', r = 46 :: r' → 46 ∈ w) → parseClockMsec b p = .error .reject := by
      intro hno
      rw [parseClockMsec, findSeps_eq h hs, run_ok_bind]
      dsimp only
      by_cases hdot : 46 ∈ 58 :: (w ++ r)
      · obtain ⟨u, v, huv, hu⟩ := List.eq_append_cons_of_mem hdot
        have hfind := (huv ▸ hlast).strchr_mem hu
        have hfar : p + 2 + 3 + u.length ≠ p + 2 + 3 + 3 := by
          intro heq
          have hulen : u.length = (58 :: w).length := by
            rw [List.length_cons, hs.third]
            omega
          obtain ⟨rfl, hr⟩ := List.append_inj
            (huv.symm.trans (List.cons_append ..).symm) hulen
          exact hu (List.mem_cons_of_mem _ (hno v hr.symm))
        rw [hfind, orFault_some, run_ok_bind]
        exact if_pos hfar
      · rw [hlast.strchr_notMem hdot (by decide), orFault_some, run_ok_bind]
    by_cases hform : ∃ r', r = 46 :: r' ∧ 46 ∉ w
    · obtain ⟨r', rfl, hw⟩ := hform
      rw [List.length_cons] at hrlen
      refine .inr ⟨x, y, w, r'.take 3, r'.drop 3, ?_, hw, List.length_take_of_le (by omega)⟩
      rwa [List.take_append_drop]
    · refine .inl (hrefused fun r' hr => ?_)
      by_contra hw
      exact hform ⟨r', hr, hw⟩

/-- The blank behind the date. -/
theorem cutBlank_eq {u v : List UInt8} (h : StrAt b p (u ++ 32 :: v)) (hu : 32 ∉ u)
    (hlen : u.length = 10) :
    ∃ b', cutBlank b p = .ok (p + u.length + 1, b') ∧ StrAt b' p u ∧
      StrAt b' (p + u.length + 1) v := by
  refine ⟨_, ?_, h.cut_left, h.cut_right⟩
  rw [cutBlank, h.strchr_mem hu, orFault_some, run_ok_bind]
  dsimp only
  rw [if_neg (by rw [hlen]; exact not_not.mpr rfl), h.put_eq (by simp), orFault_some, run_ok_bind]

theorem cutBlank_cases (h : StrAt b p s) :
    cutBlank b p = .error .reject ∨ ∃ u v, s = u ++ 32 :: v ∧ 32 ∉ u ∧ u.length = 10 := by
  by_cases hs : 32 ∈ s
  · obtain ⟨u, v, rfl, hu⟩ := List.eq_append_cons_of_mem hs
    by_cases hlen : u.length = 10
    · exact .inr ⟨u, v, rfl, hu, hlen⟩
    · refine .inl ?_
      rw [cutBlank, h.strchr_mem hu, orFault_some, run_ok_bind]
      exact if_pos (by omega)
  · refine .inl ?_
    rw [cutBlank, h.strchr_notMem hs (by decide), orFault_some, run_ok_bind]

end Parts

end Convd
