/-
# `Convd.CstrbufNul` — the NUL behind a string buffer

A buffer is used as a C string, so `str[len]` is to be NUL.  Each function sees to it, but for
one: `cstrbufPushBack` stores a character in place and leaves what is behind it as it was.

    cstrbufNew                          NUL up to `maxsz`
    cstrbufCat, Concat, Dup, Sub        `str[len] = 0` at the end
    cstrbufTrunc                        `str[len] = 0`, or nothing is changed
    cstrbufPushBack                     in place, `str[len + 1]` as it was

What was there is NUL as long as the buffer only grew from `cstrbufNew`.  After a truncation it
is what was cut off, and after a `realloc` it is what the memory was used for before.
-/
import Convd.CstrbufRuns

namespace Convd

open CString Steps

/-! ## Where a NUL is put -/

/-- The byte behind the contents is NUL. -/
def Cstrbuf.Ended (b : Cstrbuf) : Prop := b.str b.len = 0

theorem cstrbufNew_ended (junk : Mem UInt8) {maxsz len : Nat} {source : Option (List UInt8)}
    (hmaxsz : FitsUb4 maxsz) (h : Given source len) :
    (cstrbufNew junk maxsz source len).1.Ended := by
  obtain ⟨hlt, hlt32⟩ := lt_newMaxsz hmaxsz h.short
  have hgiven := h.givenLength_maximum
  generalize meantLength source len = n at hlt hlt32 hgiven
  cases source with
  | none =>
      obtain ⟨k, hk⟩ := Nat.exists_eq_succ_of_ne_zero (Nat.ne_zero_of_lt hlt)
      simp only [cstrbufNew, hgiven, Cstrbuf.Ended, hk, List.replicate_succ, Mem.store_cons_self]
  | some s =>
      obtain ⟨k, hk⟩ := Nat.exists_eq_succ_of_ne_zero (Nat.sub_ne_zero_of_lt hlt)
      simp only [cstrbufNew, hgiven, Cstrbuf.Ended, subUb4_of_le (Nat.le_of_lt hlt) hlt32, hk,
        List.replicate_succ, Mem.store_cons_self]

theorem cstrbufCat_ended (junk : Mem UInt8) (dst : Option Cstrbuf) (text : List UInt8) :
    (cstrbufCat junk dst text).1.Ended := by
  cases dst with
  | none => exact Mem.store_cons_self _ _ _ _
  | some b =>
      simp only [cstrbufCat, catOnto]
      split
      · exact Mem.store_cons_self _ _ _ _
      · exact Mem.store_cons_self _ _ _ _

theorem cstrbufConcat_ended (junk : Nat → Mem UInt8) (start : Option Cstrbuf)
    (args : List (Option Cstrbuf)) : (cstrbufConcat junk start args).1.Ended := by
  have hloop : ∀ (junk : Nat → Mem UInt8) (result src : Option Cstrbuf),
      (concatLoop junk result src args).1.Ended := by
    induction args with
    | nil =>
        intro junk result src
        exact cstrbufCat_ended (junk 0) result (printed src)
    | cons next args ih =>
        intro junk result src
        cases next with
        | none => exact cstrbufCat_ended (junk 0) result (printed src)
        | some next => exact ih _ _ _
  exact hloop junk none start

theorem cstrbufDup_ended (junk : Mem UInt8) (dst : Option Cstrbuf) {source : Option (List UInt8)}
    {sourcelen : Nat} (h : Given source sourcelen) :
    (cstrbufDup junk dst source sourcelen).1.Ended := by
  cases dst with
  | none => exact cstrbufNew_ended junk (.inl (by decide)) h
  | some b =>
      simp only [cstrbufDup, h.givenLength_eq]
      split
      · exact Mem.store_cons_self b.str 0 0 []
      · split
        · exact Mem.store_cons_self _ _ _ _
        · exact cstrbufNew_ended junk (.inl (by decide)) (given_of_lt h.short h.length_le)

theorem cstrbufSub_ended (junk : Nat → Mem UInt8) (source : List UInt8) (startindex length : Int)
    (substr : List UInt8) (sublen : Int) :
    (cstrbufSub junk source startindex length substr sublen).1.Ended := by
  simp only [cstrbufSub, Cstrbuf.Ended, Mem.store_cons_self]

theorem cstrbufTrunc_ended {s : Cstrbuf} (hs : s.Ended) (len : Nat) :
    (cstrbufTrunc s len).1.Ended := by
  rw [cstrbufTrunc]
  split
  · exact Mem.store_cons_self _ _ _ _
  · exact hs

/-- In place the byte behind the new one is the one that was there. -/
theorem cstrbufPushBack_ended_iff (junk : Mem UInt8) {dst : Option Cstrbuf} (ch : UInt8)
    (hdst : ∀ b ∈ dst, b.Sized) : (cstrbufPushBack junk dst ch).1.Ended ↔
      ∀ b ∈ dst, b.len + 1 < b.maxsz → b.str (b.len + 1) = 0 := by
  cases dst with
  | none => exact iff_of_true (cstrbufCat_ended junk none [ch]) fun _ hb => nomatch hb
  | some b =>
      obtain ⟨hlt, -, hlt32⟩ := hdst b rfl
      have hub4 : toUb4 (b.len + 1) = b.len + 1 := toUb4_of_lt (by omega)
      simp only [cstrbufPushBack, hub4, Option.mem_some, forall_eq']
      split
      · rename_i hroom
        have hbehind := Mem.store_singleton_of_ne b.str ch (Nat.succ_ne_self b.len)
        rw [Cstrbuf.Ended]
        exact ⟨fun hend _ => hbehind ▸ hend, fun hnul => hbehind.trans (hnul hroom)⟩
      · rename_i hfull
        exact iff_of_true (cstrbufCat_ended junk (some b) [ch]) fun hroom => absurd hroom hfull

/-! ## Reading a buffer as a string -/

/-- The buffer is a C string, of its contents. -/
structure Cstrbuf.Terminated (b : Cstrbuf) : Prop where
  nul : b.str b.len = 0
  reads : cstr (b.str.load 0 b.alloc) = b.contents

theorem Cstrbuf.terminated_iff {b : Cstrbuf} (hb : b.Sized) (hfree : ∀ c ∈ b.contents, c ≠ 0) :
    b.Terminated ↔ b.Ended := by
  constructor
  · intro hterm
    exact hterm.nul
  · intro hend
    have hlt := Nat.lt_of_lt_of_le hb.len_lt hb.maxsz_le
    obtain ⟨k, hk⟩ := Nat.exists_eq_add_of_lt hlt
    have hnul : b.str.load b.len (k + 1) = 0 :: b.str.load (b.len + 1) k := by
      rw [Mem.load, hend]
    refine ⟨hend, ?_⟩
    rw [hk, Nat.add_assoc, Mem.load_add, Nat.zero_add, hnul]
    exact cstr_append_zero hfree _

section Heap

variable {ι : Type} [DecidableEq ι] {h : CstrbufHeap ι} {s : ι → Option (List UInt8)}

/-- Every buffer is a C string. -/
def AllTerminated (h : CstrbufHeap ι) : Prop := ∀ i, ∀ b ∈ h.pool i, b.Terminated

/-- Every buffer has its NUL. -/
def AllEnded (h : CstrbufHeap ι) : Prop := ∀ i, ∀ b ∈ h.pool i, b.Ended

omit [DecidableEq ι] in
theorem Refines.allTerminated_iff (hr : Refines h s) (hfree : AllNulFree s) :
    AllTerminated h ↔ AllEnded h := by
  have hbuf : ∀ i, ∀ b ∈ h.pool i, (b.Terminated ↔ b.Ended) := by
    intro i b hb
    apply Cstrbuf.terminated_iff (hr.sized i b hb)
    apply hfree i
    rw [← hr.contents i, Option.mem_def.mp hb]
    rfl
  constructor
  · intro hall i b hb
    exact (hbuf i b hb).mp (hall i b hb)
  · intro hall i b hb
    exact (hbuf i b hb).mpr (hall i b hb)

theorem AllEnded.put_iff (hall : AllEnded h) (r : ι) (made : Cstrbuf × List BufWrite) :
    AllEnded (h.put r made) ↔ made.1.Ended := by
  constructor
  · intro hput
    exact hput r made.1 (h.pool_put_self r made)
  · intro hmade i b hb
    by_cases hi : i = r
    · subst hi
      rw [h.pool_put_self] at hb
      exact Option.mem_some.mp hb ▸ hmade
    · rw [h.pool_put_of_ne made hi] at hb
      exact hall i b hb

/-- A character that is pushed back in place finds a NUL where the next would go. -/
def FindsNul (h : CstrbufHeap ι) (c : CstrbufCall ι) : Prop :=
  match c.op with
  | .pushBack dst _ => ∀ b ∈ h.pool dst, b.len + 1 < b.maxsz → b.str (b.len + 1) = 0
  | .new .. | .cat .. | .concat .. | .dup .. | .sub .. | .trunc .. => True

/-- Every call leaves the NULs where they are to be, but for one that pushes a character back. -/
theorem AllEnded.call_iff (hall : AllEnded h) (hr : Refines h s) {c : CstrbufCall ι}
    (hc : Admits cstr s c) : AllEnded (h.call c) ↔ FindsNul h c := by
  obtain ⟨op, junk⟩ := c
  obtain ⟨hargs, -⟩ := hc
  cases op with
  | new r maxsz str len =>
      obtain ⟨hmaxsz, hgiven⟩ := hargs
      exact iff_of_true ((hall.put_iff r _).mpr (cstrbufNew_ended (junk 0) hmaxsz hgiven)) trivial
  | cat dst text =>
      exact iff_of_true ((hall.put_iff dst _).mpr (cstrbufCat_ended _ _ _)) trivial
  | concat r start args =>
      exact iff_of_true ((hall.put_iff r _).mpr (cstrbufConcat_ended _ _ _)) trivial
  | dup dst source sourcelen =>
      exact iff_of_true ((hall.put_iff dst _).mpr (cstrbufDup_ended _ _ hargs.1)) trivial
  | sub r source startindex length substr sublen =>
      exact iff_of_true ((hall.put_iff r _).mpr (cstrbufSub_ended _ _ _ _ _ _)) trivial
  | trunc d len =>
      refine iff_of_true ?_ trivial
      cases hpool : h.pool d with
      | none => simpa only [CstrbufHeap.call, hpool] using hall
      | some b =>
          simp only [CstrbufHeap.call, hpool]
          exact (hall.put_iff d _).mpr (cstrbufTrunc_ended (hall d b hpool) len)
  | pushBack dst ch =>
      exact (hall.put_iff dst _).trans (cstrbufPushBack_ended_iff (junk 0) ch (hr.sized dst))

/-! ## Runs -/

/-- What is asked of the calls of a run. -/
def AdmitsNulFree (s : ι → Option (List UInt8)) (c : CstrbufCall ι) : Prop :=
  Admits cstr s c ∧ c.op.NulFree

/-- In a run on text without a NUL every buffer is a C string all the way, if and only if every
character that is pushed back in place finds a NUL where the next would go. -/
theorem cstrbuf_terminated_iff {calls : List (CstrbufCall ι)}
    (hcalls : Meets (stringsCall cstr) AdmitsNulFree (fun _ => none) calls) :
    Always CstrbufHeap.call AllTerminated .empty calls ↔
      Meets CstrbufHeap.call FindsNul .empty calls := by
  have hkeep : ∀ (h : CstrbufHeap ι) s c, Refines h s ∧ AllNulFree s → AdmitsNulFree s c →
      Refines (h.call c) (stringsCall cstr s c) ∧ AllNulFree (stringsCall cstr s c) := by
    rintro h s c ⟨hr, hfree⟩ ⟨hadmits, hnul⟩
    exact ⟨hr.call hadmits, hfree.call hnul⟩
  have hempty : Refines (.empty : CstrbufHeap ι) (fun _ => none) ∧
      AllNulFree fun _ : ι => none := ⟨refines_empty, fun _ _ ht => nomatch ht⟩
  -- the strings that a heap stands for go with it
  have hheap : Meets CstrbufHeap.call
      (fun h c => ∃ s, (Refines h s ∧ AllNulFree s) ∧ AdmitsNulFree s c) .empty calls :=
    Meets.simulated hkeep (fun h s c hr hc => ⟨s, hr, hc⟩) hempty hcalls
  refine always_iff_meets ?_ (fun _ _ hb => nomatch hb) hheap
  rintro h c ⟨s, hrs, hc⟩ hterm
  obtain ⟨hr, hfree⟩ := hrs
  obtain ⟨hr', hfree'⟩ := hkeep h s c ⟨hr, hfree⟩ hc
  rw [hr'.allTerminated_iff hfree']
  exact ((hr.allTerminated_iff hfree).mp hterm).call_iff hr hc.1

end Heap

/-- A buffer that only grew. -/
def grownCalls : List (CstrbufCall Nat) :=
  [⟨.new 0 16 (some (ascii "ab")) 2, fun _ _ => 7⟩, ⟨.pushBack 0 99, fun _ _ => 7⟩]

theorem cstrbuf_terminated_iff_grown :
    Always CstrbufHeap.call AllTerminated .empty grownCalls ↔
      Meets CstrbufHeap.call FindsNul .empty grownCalls := by
  apply cstrbuf_terminated_iff
  have hgiven : Given (some (ascii "ab")) 2 := by
    apply given_of_lt (by decide)
    intro s hs
    cases hs
    decide
  have hfree : ∀ c ∈ ascii "ab", c ≠ 0 := by decide +kernel
  have hch : (99 : UInt8) ≠ 0 := by decide
  refine ⟨⟨⟨⟨.inl (by decide), hgiven⟩, ?_⟩, hfree⟩, ⟨⟨trivial, ?_⟩, hch⟩, trivial⟩
  · decide +kernel
  · decide +kernel

/-- Three characters, cut off behind the first, and one pushed back. -/
def staleCalls : List (CstrbufCall Nat) :=
  [⟨.new 0 16 (some (ascii "abc")) 3, fun _ _ => 7⟩, ⟨.trunc 0 1, fun _ _ => 7⟩,
    ⟨.pushBack 0 120, fun _ _ => 7⟩]

/-- The character that was third is third again: the buffer of two reads `axc`. -/
theorem cstrbuf_not_terminated :
    ¬ ∀ calls : List (CstrbufCall Nat),
      Meets (stringsCall cstr) AdmitsNulFree (fun _ => none) calls →
      Always CstrbufHeap.call AllTerminated .empty calls := by
  intro hterminated
  have hgiven : Given (some (ascii "abc")) 3 := by
    apply given_of_lt (by decide)
    intro s hs
    cases hs
    decide
  have hfree : ∀ c ∈ ascii "abc", c ≠ 0 := by decide +kernel
  have hcalls : Meets (stringsCall cstr) AdmitsNulFree (fun _ : Nat => none) staleCalls := by
    have hch : (120 : UInt8) ≠ 0 := by decide
    refine ⟨⟨⟨⟨.inl (by decide), hgiven⟩, ?_⟩, hfree⟩, ⟨⟨rfl, ?_⟩, trivial⟩,
      ⟨⟨trivial, ?_⟩, hch⟩, trivial⟩
    · decide +kernel
    · decide +kernel
    · decide +kernel
  have hall := hterminated staleCalls hcalls
  have hlast : AllTerminated (staleCalls.foldl CstrbufHeap.call .empty) := hall.2.2.2
  have hread : ((staleCalls.foldl CstrbufHeap.call .empty).pool 0).map
      (fun b => cstr (b.str.load 0 b.alloc)) = some (ascii "axc") := by
    decide +kernel
  have hcontents : ((staleCalls.foldl CstrbufHeap.call .empty).pool 0).map Cstrbuf.contents
      = some (ascii "ax") := by
    decide +kernel
  obtain ⟨b, hb, hb'⟩ := Option.map_eq_some_iff.mp hread
  rw [hb, Option.map_some, ← (hlast 0 b hb).reads, hb'] at hcontents
  exact absurd hcontents (by decide)

end Convd
