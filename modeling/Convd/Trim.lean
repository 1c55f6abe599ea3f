/-
# `Convd.Trim` — trimming a string where it stands

The trimming functions of `cstrbuf.h`.  They move the pointer over what is in front, or
write a NUL into what is behind.  `cstr_trim_whitespace` takes white space out everywhere:
it calls itself on the rest of the string, up to three times, and what it leaves is

    s                p
    white space ...  the other characters, in their order  NUL

A call on a string that is arranged so already changes nothing, and that is what the second
and the third call meet.
-/
import Convd.Def
import Convd.Lib.Block
import Convd.Lib.Strip

namespace Convd

open CString Block
open List (strip)

/-! ## The code -/

/-- `while (p(*str)) str++`: how far it goes. -/
def skip (p : UInt8 → Bool) : List UInt8 → Option Nat
  | [] => none
  | c :: l => if p c then (skip p l).map (· + 1) else some 0

/-- `cstr_Ltrim_chr` -/
def cstrLtrimChr (b : Block) (str : Nat) (ch : UInt8) : Option Nat :=
  (skip (fun c => c != 0 && c == ch) (b.drop str)).map (str + ·)

/-- The loop of `cstr_Rtrim_chr`: where it leaves `p` and `q`. -/
def lastOther (ch : UInt8) : List UInt8 → Nat → Nat → Option (Nat × Nat)
  | [], _, _ => none
  | c :: l, p, q =>
      if c = 0 then some (p, q)
      else lastOther ch l (p + 1) (if c ≠ ch then p else q)

/-- `cstr_Rtrim_chr`: what is stored in `*outlen`, and the object. -/
def cstrRtrimChr (b : Block) (str : Nat) (ch : UInt8) : Option (Int × Block) := do
  let (p, q) ← lastOther ch (b.drop str) str str
  if q + 1 ≤ p then
    let b ← put b (q + 1) 0
    some (toInt (q + 1 - str), b)
  else some (0, b)

/-- `cstr_LRtrim_chr`: the string, `*outlen`, and the object. -/
def cstrLRtrimChr (b : Block) (str : Nat) (ch : UInt8) : Option (Nat × Int × Block) := do
  let str ← cstrLtrimChr b str ch
  let (outlen, b) ← cstrRtrimChr b str ch
  some (str, outlen, b)

/-- `cstr_length(str, maxlen)` of a string in an object. -/
def cstrLengthAt (b : Block) (str : Nat) (maxlen : Int) : Option Int :=
  if maxlen = -1 then (strlen b str).map toInt else (strnlen b str (toSizeT maxlen)).map toInt

/-- `cstr_Ltrim_whitespace` -/
def cstrLtrimWhitespace (b : Block) (str : Nat) : Option Nat :=
  (skip isspace (b.drop str)).map (str + ·)

/-- `while (len-- > 0)`, and `len + 1` behind it. -/
def rtrimLoop (b : Block) (str : Nat) : Nat → Option (Nat × Block)
  | 0 => some (0, b)
  | len + 1 => do
      let c ← b[str + len]?
      if isspace c then
        let b ← put b (str + len) 0
        rtrimLoop b str len
      else some (len + 1, b)

/-- `cstr_Rtrim_whitespace` -/
def cstrRtrimWhitespace (b : Block) (str : Nat) (len : Int) : Option (Int × Block) :=
  if len < 0 then some (len, b)
  else (rtrimLoop b str len.toNat).map fun (n, b) => ((n : Int), b)

/-- `cstr_LRtrim_whitespace` -/
def cstrLRtrimWhitespace (b : Block) (str : Nat) : Option (Nat × Block) := do
  let p ← cstrLtrimWhitespace b str
  let len ← cstrLengthAt b p (-1)
  let (_, b) ← cstrRtrimWhitespace b p len
  some (p, b)

/-- `cstr_trim_whitespace`, to a depth.  The call in front of the write `*(… - 1) = *s` and
the read of `*s` may be made in either order. -/
def cstrTrimWhitespace : Nat → Block → Nat → Option (Nat × Block)
  | 0, _, _ => none
  | n + 1, b, s => do
      let c ← b[s]?
      if c = 0 then some (s, b)
      else if ! isspace c then
        let (p, b) ← cstrTrimWhitespace n b (s + 1)
        if p = s + 1 then some (s, b)
        else
          let (p, b) ← cstrTrimWhitespace n b (s + 1)
          let c ← b[s]?
          let b ← put b (p - 1) c
          let b ← put b s 32
          cstrTrimWhitespace n b (s + 1)
      else cstrTrimWhitespace n b (s + 1)

/-! ## White space taken out -/

theorem isspace_zero : isspace 0 = false := by decide

theorem isspace_ne_zero {c : UInt8} (hc : isspace c) : c ≠ 0 := by
  rintro rfl
  exact absurd hc (by simp [isspace_zero])

/-- White space, then other characters: nothing is changed. -/
theorem cstrTrimWhitespace_arranged {f rest : List UInt8} (hf : ∀ c ∈ f, isspace c = false)
    (hnul : 0 ∉ f) {w : List UInt8} (hw : ∀ c ∈ w, isspace c) : ∀ {n s : Nat} {b : Block},
      b.drop s = w ++ (f ++ 0 :: rest) → w.length + f.length < n →
      cstrTrimWhitespace n b s = some (s + w.length, b) := by
  induction w with
  | nil =>
      induction f with
      | nil =>
          rintro (_ | n) s b hb hn
          · exact absurd hn (Nat.not_lt_zero _)
          · rw [cstrTrimWhitespace, (of_drop_eq_cons hb).1]
            rfl
      | cons c f ih =>
          rintro (_ | n) s b hb hn
          · exact absurd hn (Nat.not_lt_zero _)
          · obtain ⟨hc, hf⟩ := List.forall_mem_cons.mp hf
            obtain ⟨hc0, hnul⟩ := List.ne_and_not_mem_of_not_mem_cons hnul
            obtain ⟨hget, hdrop⟩ := of_drop_eq_cons hb
            have hrest := ih hf hnul hdrop (by simpa using hn)
            rw [cstrTrimWhitespace, hget]
            simp [hc, Ne.symm hc0, hrest]
  | cons c w ih =>
      rintro (_ | n) s b hb hn
      · exact absurd hn (Nat.not_lt_zero _)
      · obtain ⟨hc, hw⟩ := List.forall_mem_cons.mp hw
        obtain ⟨hget, hdrop⟩ := of_drop_eq_cons hb
        have hrest := ih hw hdrop (by simpa [Nat.add_right_comm] using hn)
        rw [cstrTrimWhitespace, hget]
        simp [hc, isspace_ne_zero hc, hrest]
        omega

section Main

variable {pre w f rest : List UInt8} {c : UInt8} {n : Nat}

/-- The calls on what is behind a character. -/
theorem cstrTrimWhitespace_behind (hw : ∀ c ∈ w, isspace c) (hf : ∀ c ∈ f, isspace c = false)
    (hnul : 0 ∉ f) (hn : w.length + f.length < n) (a : UInt8) :
    cstrTrimWhitespace n (pre ++ a :: (w ++ (f ++ 0 :: rest))) (pre.length + 1)
      = some (pre.length + 1 + w.length, pre ++ a :: (w ++ (f ++ 0 :: rest))) := by
  have hdrop : (pre ++ a :: (w ++ (f ++ 0 :: rest))).drop (pre.length + 1)
      = w ++ (f ++ 0 :: rest) := by
    rw [← List.drop_drop, List.drop_left, List.drop_succ_cons, List.drop_zero]
  exact cstrTrimWhitespace_arranged hf hnul hw hdrop hn

/-- The turn of a character behind which there is white space, the second call being one that
changes nothing. -/
theorem cstrTrimWhitespace_turn {s p : Nat} {b b₁ b₂ b₃ : Block} (hget : b[s]? = some c)
    (hc0 : c ≠ 0) (hc : isspace c = false)
    (hfirst : cstrTrimWhitespace n b (s + 1) = some (p, b₁)) (hp : p ≠ s + 1)
    (hsecond : cstrTrimWhitespace n b₁ (s + 1) = some (p, b₁)) (hkeep : b₁[s]? = some c)
    (hwrite : put b₁ (p - 1) c = some b₂) (hblank : put b₂ s 32 = some b₃) :
    cstrTrimWhitespace (n + 1) b s = cstrTrimWhitespace n b₃ (s + 1) := by
  rw [cstrTrimWhitespace, hget]
  simp [hc0, hc, hfirst, hp, hsecond, hkeep, hwrite, hblank]

/-- White space has come to the place behind a character: the character is written at its end,
and a blank where it was. -/
theorem cstrTrimWhitespace_moves {d : UInt8} (hc : isspace c = false) (hc0 : c ≠ 0)
    (hw : ∀ c ∈ w, isspace c) (hd : isspace d) (hf : ∀ c ∈ f, isspace c = false)
    (hnul : 0 ∉ f) (hn : w.length + f.length + 1 < n) {b : Block} (hget : b[pre.length]? = some c)
    (hfirst : cstrTrimWhitespace n b (pre.length + 1)
      = some (pre.length + 1 + (w ++ [d]).length, pre ++ c :: (w ++ [d] ++ (f ++ 0 :: rest)))) :
    cstrTrimWhitespace (n + 1) b pre.length
      = some (pre.length + 1 + w.length, pre ++ 32 :: (w ++ (c :: f ++ 0 :: rest))) := by
  have hlen : (w ++ [d]).length = w.length + 1 := List.length_append
  have hwd : ∀ a ∈ w ++ [d], isspace a := by
    simpa [or_imp, forall_and] using ⟨hw, hd⟩
  have hcf : ∀ a ∈ c :: f, isspace a = false := List.forall_mem_cons.mpr ⟨hc, hf⟩
  have hnul' : 0 ∉ c :: f := List.not_mem_cons_of_ne_of_not_mem (Ne.symm hc0) hnul
  have hwrite : put (pre ++ c :: (w ++ [d] ++ (f ++ 0 :: rest)))
      (pre.length + 1 + (w ++ [d]).length - 1) c
        = some (pre ++ c :: (w ++ (c :: f ++ 0 :: rest))) := by
    have hat : pre.length + 1 + (w ++ [d]).length - 1 = (pre ++ c :: w).length := by
      rw [hlen, List.length_append, List.length_cons]
      omega
    have h := @put_append (pre ++ c :: w) (f ++ 0 :: rest) d c
    rw [hat]
    simpa using h
  rw [cstrTrimWhitespace_turn hget hc0 hc hfirst (by omega)
    (cstrTrimWhitespace_behind hwd hf hnul (by omega) c) (by simp) hwrite (put_append 32)]
  exact cstrTrimWhitespace_behind hw hcf hnul' (by rw [List.length_cons]; omega) 32

/-- What is left: white space as long as what was taken out, then the other characters in their
order, and the NUL where it was. -/
theorem cstrTrimWhitespace_compacts {text : List UInt8} (htext : 0 ∉ text)
    (hn : text.length < n) (pre rest : List UInt8) :
    ∃ w, cstrTrimWhitespace n (pre ++ (text ++ 0 :: rest)) pre.length
        = some (pre.length + w.length,
          pre ++ (w ++ (text.filter (fun c => ! isspace c) ++ 0 :: rest))) ∧
      (∀ c ∈ w, isspace c) ∧
      w.length + (text.filter fun c => ! isspace c).length = text.length := by
  induction text generalizing n pre with
  | nil =>
      have h : cstrTrimWhitespace n (pre ++ 0 :: rest) pre.length
          = some (pre.length, pre ++ 0 :: rest) :=
        cstrTrimWhitespace_arranged (List.forall_mem_nil _) htext (List.forall_mem_nil _)
          List.drop_left hn
      exact ⟨[], h, List.forall_mem_nil _, rfl⟩
  | cons c text ih =>
      obtain ⟨hc0, htext⟩ := List.ne_and_not_mem_of_not_mem_cons htext
      obtain ⟨n, rfl⟩ := Nat.exists_eq_succ_of_ne_zero (Nat.ne_zero_of_lt hn)
      obtain ⟨w, hcall, hw, hlen⟩ := ih htext (Nat.lt_of_succ_lt_succ hn) (pre ++ [c])
      rw [List.append_assoc, List.singleton_append, List.length_append, List.length_singleton,
        List.append_assoc, List.singleton_append] at hcall
      have hget : (pre ++ c :: (text ++ 0 :: rest))[pre.length]? = some c := by simp
      by_cases hc : isspace c
      · refine ⟨c :: w, ?_, List.forall_mem_cons.mpr ⟨hc, hw⟩, ?_⟩
        · rw [List.cons_append, cstrTrimWhitespace, hget]
          simp [Ne.symm hc0, hc, hcall]
          omega
        · rw [List.filter_cons_of_neg (by simpa using hc), List.length_cons, List.length_cons]
          omega
      · have hc' : isspace c = false := by simpa using hc
        have hchars : ∀ a ∈ text.filter (fun c => ! isspace c), isspace a = false := by simp
        have hnul : 0 ∉ text.filter (fun c => ! isspace c) :=
          fun hmem => htext (List.mem_of_mem_filter hmem)
        rw [List.filter_cons_of_pos (by simpa using hc), List.length_cons, List.length_cons]
        rcases List.eq_nil_or_concat' w with rfl | ⟨w, d, rfl⟩
        · refine ⟨[], ?_, List.forall_mem_nil _, by simpa using hlen⟩
          rw [List.cons_append, cstrTrimWhitespace, hget]
          simp [Ne.symm hc0, hc', hcall]
        · rw [List.length_append, List.length_singleton] at hlen
          rw [List.length_cons] at hn
          obtain ⟨hw, hd⟩ := List.forall_mem_append.mp hw
          have hmoves := cstrTrimWhitespace_moves hc' (Ne.symm hc0) hw
            (hd d (List.mem_singleton_self d)) hchars hnul (by omega) hget hcall
          refine ⟨32 :: w, ?_, List.forall_mem_cons.mpr ⟨rfl, hw⟩, ?_⟩
          · rw [List.cons_append, hmoves, List.length_cons, Nat.add_assoc, Nat.add_comm 1]
            rfl
          · rw [List.length_cons]
            omega

end Main

theorem cstrTrimWhitespace_compacts_letters :
    ∃ w, cstrTrimWhitespace 4 ([] ++ ([97, 32, 98] ++ 0 :: [])) ([] : Block).length
        = some (([] : Block).length + w.length,
          [] ++ (w ++ ([97, 32, 98].filter (fun c => ! isspace c) ++ 0 :: []))) ∧
      (∀ c ∈ w, isspace c) ∧
      w.length + ([97, 32, 98].filter fun c => ! isspace c).length = 3 :=
  cstrTrimWhitespace_compacts (by decide) (by decide) [] []

/-! ## Both ends -/

section Ends

variable {b : Block} {p : Nat} {s rest : List UInt8}

theorem skip_eq {f : UInt8 → Bool} (hf : f 0 = false) (s rest : List UInt8) :
    skip f (s ++ 0 :: rest) = some (s.takeWhile f).length := by
  induction s with
  | nil => rw [List.nil_append, skip, hf]; rfl
  | cons c s ih =>
      rw [List.cons_append, skip]
      by_cases hc : f c
      · rw [if_pos hc, ih, List.takeWhile_cons_of_pos hc, List.length_cons, Option.map_some]
      · rw [if_neg hc, List.takeWhile_cons_of_neg hc, List.length_nil]

theorem skip_drop (h : StrAt b p s) {f : UInt8 → Bool} (hf : f 0 = false) :
    skip f (b.drop p) = some (s.takeWhile f).length := by
  obtain ⟨-, rest, hdrop⟩ := h
  rw [hdrop, skip_eq hf]

section Chr

variable {ch c : UInt8} {u v : List UInt8}

theorem lastOther_same (hv : ∀ a ∈ v, a = ch) (hnul : 0 ∉ v) (p q : Nat) :
    lastOther ch (v ++ 0 :: rest) p q = some (p + v.length, q) := by
  induction v generalizing p with
  | nil => rfl
  | cons a v ih =>
      obtain ⟨ha, hv⟩ := List.forall_mem_cons.mp hv
      obtain ⟨ha0, hnul⟩ := List.ne_and_not_mem_of_not_mem_cons hnul
      rw [List.cons_append, lastOther, if_neg (Ne.symm ha0), if_neg (not_not.mpr ha), ih hv hnul,
        List.length_cons, Nat.add_assoc, Nat.add_comm 1]

/-- The loop leaves `q` at the last other character. -/
theorem lastOther_eq (hc : c ≠ ch) (hv : ∀ a ∈ v, a = ch) (hnul : 0 ∉ u ++ c :: v) (p q : Nat) :
    lastOther ch (u ++ c :: v ++ 0 :: rest) p q
      = some (p + (u ++ c :: v).length, p + u.length) := by
  induction u generalizing p q with
  | nil =>
      obtain ⟨hc0, hnul⟩ := List.ne_and_not_mem_of_not_mem_cons hnul
      rw [List.nil_append, List.cons_append, lastOther, if_neg (Ne.symm hc0), if_pos hc,
        lastOther_same hv hnul, List.length_cons, Nat.add_assoc, Nat.add_comm 1]
      rfl
  | cons a u ih =>
      obtain ⟨ha0, hnul⟩ := List.ne_and_not_mem_of_not_mem_cons hnul
      rw [List.cons_append, List.cons_append, lastOther, if_neg (Ne.symm ha0), ih hnul,
        List.length_cons, List.length_cons, Nat.add_assoc, Nat.add_assoc, Nat.add_comm 1,
        Nat.add_comm 1]

/-- A string that is cut behind its last other character. -/
theorem cstrRtrimChr_eq (h : StrAt b p (u ++ c :: v)) (hc : c ≠ ch) (hv : ∀ a ∈ v, a = ch) :
    cstrRtrimChr b p ch = some (toInt (u.length + 1), b.set (p + (u.length + 1)) 0) := by
  have hput := h.put_eq (i := u.length + 1) (by simp) 0
  obtain ⟨hnul, rest, hdrop⟩ := h
  have hle : p + u.length + 1 ≤ p + (u ++ c :: v).length := by
    rw [List.length_append, List.length_cons]
    omega
  have hlen : p + u.length + 1 - p = u.length + 1 := by omega
  simp only [cstrRtrimChr, hdrop, lastOther_eq hc hv hnul, Option.bind_eq_bind,
    Option.bind_some, if_pos hle, hlen]
  rw [Nat.add_assoc, hput, Option.bind_some]

/-- An empty string is left as it is. -/
theorem cstrRtrimChr_nil (h : StrAt b p []) : cstrRtrimChr b p ch = some (0, b) := by
  obtain ⟨-, rest, hdrop⟩ := h
  simp [cstrRtrimChr, hdrop, lastOther]

theorem cstrLtrimChr_eq (h : StrAt b p s) (hch : ch ≠ 0) :
    cstrLtrimChr b p ch = some (p + (s.takeWhile (· == ch)).length) := by
  have hsame : (fun c => c != 0 && c == ch) = (· == ch) := by
    funext c
    by_cases hc : c = ch
    · simp [hc, hch]
    · simp [hc]
  rw [cstrLtrimChr, hsame, skip_drop h (by simpa using Ne.symm hch), Option.map_some]

/-- The run at the end is cut off, unless there is nothing else; a string behind stays. -/
theorem cstrRtrimChr_trims (h : StrAt b p s) (hother : s = [] ∨ ∃ a ∈ s, a ≠ ch) :
    ∃ b', cstrRtrimChr b p ch = some (toInt (s.rdropWhile (· == ch)).length, b') ∧
      StrAt b' p (s.rdropWhile (· == ch)) ∧
      ∀ {p' : Nat} {t : List UInt8}, p + s.length < p' → StrAt b p' t → StrAt b' p' t := by
  rcases @List.rdropWhile_cases _ (· == ch) s with ⟨hall, hnil⟩ | ⟨u, c, v, hc, hv, rfl, hcut⟩
  · obtain rfl : s = [] := hother.resolve_right fun ⟨a, ha, hne⟩ => hne (eq_of_beq (hall a ha))
    rw [hnil, List.length_nil, toInt_of_lt (by decide)]
    exact ⟨b, cstrRtrimChr_nil h, h, fun _ ht => ht⟩
  · have hlen : (u ++ [c]).length = u.length + 1 := by
      rw [List.length_append, List.length_singleton]
    have hpre : u ++ c :: v = u ++ [c] ++ v := by rw [List.append_assoc, List.singleton_append]
    have htrim := cstrRtrimChr_eq h (by simpa using hc) (by simpa using hv)
    have hleft := StrAt.cut_left (hpre ▸ h)
    rw [hlen] at hleft
    rw [hcut, hlen]
    refine ⟨_, htrim, hleft, fun hp' ht => ht.set_of_outside (.inl ?_) 0⟩
    rw [List.length_append, List.length_cons] at hp'
    omega

/-- The string without the blanks at both ends, and its length. -/
theorem cstrLRtrimChr_eq (h : StrAt b p s) (hch : ch ≠ 0) :
    ∃ q b', cstrLRtrimChr b p ch = some (q, toInt (strip (· == ch) s).length, b') ∧
      StrAt b' q (strip (· == ch) s) ∧
      ∀ {p' : Nat} {t : List UInt8}, p + s.length < p' → StrAt b p' t → StrAt b' p' t := by
  have hother : s.dropWhile (· == ch) = [] ∨ ∃ a ∈ s.dropWhile (· == ch), a ≠ ch := by
    by_cases hnil : s.dropWhile (· == ch) = []
    · exact .inl hnil
    · have hhead := List.head_dropWhile_not (· == ch) hnil
      exact .inr ⟨_, List.head_mem hnil, by simpa using hhead⟩
  obtain ⟨b', htrim, hstr, hkeep⟩ := cstrRtrimChr_trims (h.dropWhile (· == ch)) hother
  have hsplit := congrArg List.length (List.takeWhile_append_dropWhile (p := (· == ch)) (l := s))
  rw [List.length_append] at hsplit
  refine ⟨_, b', ?_, hstr, fun hp' => hkeep (by omega)⟩
  simp only [cstrLRtrimChr, cstrLtrimChr_eq h hch, htrim, Option.bind_eq_bind, Option.bind_some,
    strip]

/-- A string of one character is not emptied: `q` has never moved, and the first one is kept. -/
theorem cstrRtrimChr_same {a : UInt8} (h : StrAt b p (a :: s)) (hall : ∀ c ∈ a :: s, c = ch) :
    ∃ b', cstrRtrimChr b p ch = some (1, b') := by
  have hput := h.put_eq (i := 1) (by simp) 0
  obtain ⟨hnul, rest, hdrop⟩ := h
  have hle : p + 1 ≤ p + (a :: s).length := by
    rw [List.length_cons]
    omega
  refine ⟨b.set (p + 1) 0, ?_⟩
  simp only [cstrRtrimChr, hdrop, lastOther_same hall hnul, Option.bind_eq_bind, Option.bind_some,
    if_pos hle, hput, Nat.add_sub_cancel_left, toInt_of_lt (by decide : 1 < 2 ^ 31)]
  rfl

/-- What is promised of the three functions: the run of `ch` at the end is cut off, the one in
front is passed over, and both. -/
structure TrimsRuns (b : Block) (p : Nat) (s : List UInt8) (ch : UInt8) : Prop where
  right : ∃ b', cstrRtrimChr b p ch = some (((s.rdropWhile (· == ch)).length : Int), b') ∧
    StrAt b' p (s.rdropWhile (· == ch))
  left : ∃ q, cstrLtrimChr b p ch = some q ∧ StrAt b q (s.dropWhile (· == ch))
  both : ∃ q b', cstrLRtrimChr b p ch = some (q, ((strip (· == ch) s).length : Int), b') ∧
    StrAt b' q (strip (· == ch) s)

/-- The length fits an `int` if only `ch` stands from a place on. -/
theorem length_lt_iff :
    (s.rdropWhile (· == ch)).length < 2 ^ 31 ↔ ∀ a ∈ s.drop (2 ^ 31 - 1), a = ch := by
  have hle := @List.length_rdropWhile_le_iff _ (· == ch) s (2 ^ 31 - 1)
  simp only [beq_iff_eq] at hle
  rw [← hle]
  omega

/-- Strings of `ch` alone are the exception, and strings so long that the length wraps. -/
theorem trimsRuns_iff (h : StrAt b p s) (hch : ch ≠ 0) : TrimsRuns b p s ch ↔
    (s = [] ∨ ∃ a ∈ s, a ≠ ch) ∧ ∀ a ∈ s.drop (2 ^ 31 - 1), a = ch := by
  rw [← length_lt_iff]
  constructor
  · intro htrims
    obtain ⟨b', hright, -⟩ := htrims.right
    have hother : s = [] ∨ ∃ a ∈ s, a ≠ ch := by
      by_contra hno
      obtain ⟨hne, hall⟩ := not_or.mp hno
      push Not at hall
      obtain ⟨a, t, rfl⟩ := List.exists_cons_of_ne_nil hne
      obtain ⟨b'', hsame⟩ := cstrRtrimChr_same h hall
      have hnil : (a :: t).rdropWhile (· == ch) = [] :=
        List.rdropWhile_eq_nil_iff.mpr fun c hc => beq_iff_eq.mpr (hall c hc)
      rw [hright, hnil] at hsame
      cases hsame
    refine ⟨hother, ?_⟩
    obtain ⟨b'', htrim, -, -⟩ := cstrRtrimChr_trims h hother
    rw [hright] at htrim
    obtain ⟨hlen, -⟩ := Prod.mk.inj (Option.some.inj htrim)
    have hlt := toInt_lt (s.rdropWhile (· == ch)).length
    omega
  · rintro ⟨hother, hlt⟩
    refine ⟨?_, ⟨_, cstrLtrimChr_eq h hch, h.dropWhile _⟩, ?_⟩
    · obtain ⟨b', htrim, hstr, -⟩ := cstrRtrimChr_trims h hother
      rw [toInt_of_lt hlt] at htrim
      exact ⟨b', htrim, hstr⟩
    · obtain ⟨q, b', htrim, hstr, -⟩ := cstrLRtrimChr_eq h hch
      rw [toInt_of_lt (Nat.lt_of_le_of_lt (List.length_strip_le_rdropWhile s) hlt)] at htrim
      exact ⟨q, b', htrim, hstr⟩

theorem trimsRuns_iff_letters : TrimsRuns (ascii "aabaa" ++ [0]) 0 (ascii "aabaa") 97 := by
  have hshort : (ascii "aabaa").drop (2 ^ 31 - 1) = [] := List.drop_eq_nil_of_le (by decide)
  refine (trimsRuns_iff ⟨by decide, [], rfl⟩ (by decide)).mpr ⟨.inr ⟨98, by decide, by decide⟩, ?_⟩
  rw [hshort]
  exact List.forall_mem_nil _

theorem not_trimsRuns_alone : ¬ TrimsRuns (ascii "aaa" ++ [0]) 0 (ascii "aaa") 97 := by
  intro htrims
  obtain ⟨b', hright, -⟩ := htrims.right
  have hall : ∀ c ∈ 97 :: [97, 97], c = (97 : UInt8) := by simp
  obtain ⟨b'', hsame⟩ := cstrRtrimChr_same
    (⟨by decide, [], rfl⟩ : StrAt (ascii "aaa" ++ [0]) 0 (97 :: [97, 97])) hall
  have hnil : (ascii "aaa").rdropWhile (· == 97) = [] := by decide
  rw [hright, hnil] at hsame
  cases hsame

end Chr

/-! ## White space at both ends -/

/-- What `cstr_Rtrim_whitespace` leaves of a string when it is told a length. -/
def rtrimmed (s : List UInt8) (m : Nat) : List UInt8 :=
  if (s.take m).rdropWhile isspace = s.take m then s else (s.take m).rdropWhile isspace

theorem rtrimLoop_eq (h : StrAt b p s) :
    ∃ n b', rtrimLoop b p s.length = some (n, b') ∧ StrAt b' p (s.rdropWhile isspace) := by
  induction s using List.reverseRecOn generalizing b with
  | nil => exact ⟨0, b, rfl, h⟩
  | append_singleton s c ih =>
      have hget := h.getElem? (i := s.length) (by simp)
      have hput := h.put_eq (i := s.length) (by simp) 0
      rw [List.getElem?_concat_length] at hget
      rw [List.length_append, List.length_singleton, rtrimLoop, hget, List.rdropWhile_concat]
      by_cases hc : isspace c
      · obtain ⟨n, b', hloop, hstr⟩ := ih h.cut_left
        refine ⟨n, b', ?_, by rwa [if_pos hc]⟩
        simp [hc, hput, hloop]
      · refine ⟨s.length + 1, b, ?_, by rwa [if_neg hc]⟩
        simp [hc]

theorem rtrimmed_zero (s : List UInt8) : rtrimmed s 0 = s := by
  rw [rtrimmed, List.take_zero, if_pos (List.rdropWhile_nil ..)]

theorem rtrimmed_length (s : List UInt8) : rtrimmed s s.length = s.rdropWhile isspace := by
  rw [rtrimmed, List.take_length]
  split
  · rename_i h
    exact h.symm
  · rfl

/-- A string is cut only if there is white space in front of the place it is told to end at. -/
theorem rtrimmed_concat (u : List UInt8) (c : UInt8) (v : List UInt8) :
    rtrimmed (u ++ c :: v) (u.length + 1)
      = if isspace c then u.rdropWhile isspace else u ++ c :: v := by
  have htake : (u ++ c :: v).take (u.length + 1) = u ++ [c] := by
    rw [List.append_cons]
    exact List.take_left' (List.length_append ..)
  rw [rtrimmed, htake, List.rdropWhile_concat]
  by_cases hc : isspace c
  · have hne : u.rdropWhile isspace ≠ u ++ [c] := by
      intro heq
      have hpre := List.rdropWhile_prefix isspace u
      have hle := hpre.length_le
      rw [heq, List.length_append] at hle
      exact Nat.not_succ_le_self _ hle
    rw [if_pos hc, if_neg hne, if_pos hc]
  · rw [if_neg hc, if_pos rfl, if_neg hc]

theorem cstrRtrimWhitespace_eq (h : StrAt b p s) {len : Int} (hlen : len ≤ s.length) :
    ∃ n b', cstrRtrimWhitespace b p len = some (n, b') ∧ StrAt b' p (rtrimmed s len.toNat) := by
  rcases Int.lt_or_le len 0 with hneg | hpos
  · refine ⟨len, b, if_pos hneg, ?_⟩
    rwa [Int.toNat_of_nonpos (Int.le_of_lt hneg), rtrimmed_zero]
  · obtain ⟨m, rfl⟩ := Int.eq_ofNat_of_zero_le hpos
    rw [cstrRtrimWhitespace, if_neg (Int.not_lt.mpr hpos), Int.toNat_natCast]
    cases m with
    | zero => exact ⟨0, b, rfl, by rwa [rtrimmed_zero]⟩
    | succ m =>
        have hm : m < s.length := Int.ofNat_le.mp hlen
        obtain ⟨u, c, v, rfl, rfl⟩ : ∃ u c v, s = u ++ c :: v ∧ u.length = m :=
          ⟨s.take m, s[m], s.drop (m + 1), by simp, List.length_take_of_le (Nat.le_of_lt hm)⟩
        have hget := h.getElem? (i := u.length) (by simp)
        have hput := h.put_eq (i := u.length) (by simp) 0
        rw [rtrimLoop, hget, rtrimmed_concat]
        by_cases hc : isspace c
        · obtain ⟨n, b', hloop, hstr⟩ := rtrimLoop_eq h.cut_left
          refine ⟨n, b', ?_, by rwa [if_pos hc]⟩
          simp [hc, hput, hloop]
        · refine ⟨(u.length + 1 : Nat), b, ?_, by rwa [if_neg hc]⟩
          simp [hc]

/-- What `cstr_LRtrim_whitespace` leaves.  The length it goes by is an `int`. -/
def lrTrimmed (s : List UInt8) : List UInt8 :=
  rtrimmed (s.dropWhile isspace) (toInt (s.dropWhile isspace).length).toNat

theorem lrTrimmed_of_lt (hlen : s.length < 2 ^ 31) : lrTrimmed s = strip isspace s := by
  have hle := (List.dropWhile_sublist isspace (l := s)).length_le
  rw [lrTrimmed, toInt_of_lt (Nat.lt_of_le_of_lt hle hlen), Int.toNat_natCast, rtrimmed_length,
    strip]

theorem cstrLengthAt_whole (h : StrAt b p s) : cstrLengthAt b p (-1) = some (toInt s.length) := by
  rw [cstrLengthAt, if_pos rfl, h.strlen_eq, Option.map_some]

theorem cstrLRtrimWhitespace_eq (h : StrAt b p s) :
    ∃ q b', cstrLRtrimWhitespace b p = some (q, b') ∧ StrAt b' q (lrTrimmed s) := by
  have hq := h.dropWhile isspace
  have hskip : cstrLtrimWhitespace b p = some (p + (s.takeWhile isspace).length) := by
    rw [cstrLtrimWhitespace, skip_drop h isspace_zero, Option.map_some]
  have hlen := cstrLengthAt_whole hq
  obtain ⟨n, b', hrtrim, hstr⟩ := cstrRtrimWhitespace_eq hq (toInt_le _)
  rw [← lrTrimmed] at hstr
  refine ⟨p + (s.takeWhile isspace).length, b', ?_, hstr⟩
  rw [cstrLRtrimWhitespace, hskip, Option.bind_eq_bind, Option.bind_some, hlen,
    Option.bind_eq_bind, Option.bind_some, hrtrim, Option.bind_eq_bind, Option.bind_some]

end Ends

end Convd
