/-
# `Convd.CstrbufRuns` — string buffers as strings

Buffers are held by names, and a call may make one, replace one or read some.  Beside the heap
of buffers (`CstrbufHeap`) there is what they are for: the same names, each for a string or for
none, and a call that computes on strings (`stringsCall`).  A run of calls on buffers is one on
strings (`Refines`, `cstrbuf_refines`):

    contents     of each buffer, the string
    sizes        `len < maxsz <= alloc`
    writes       each inside the block it goes to

One function does not see all of a buffer.  `cstrbufConcat` prints its arguments with `"%.*s"`,
so that of each it takes what is before the first NUL.  What is taken is a parameter of the
strings' side, `shown`; on strings without a NUL it makes no difference.
-/
import Convd.Cstrbuf
import Convd.Lib.Steps
import Mathlib.Logic.Function.Basic

namespace Convd

open CString Steps

variable {ι : Type} [DecidableEq ι]

/-! ## Calls -/

/-- A call, and the name its result is kept by. -/
inductive CstrbufOp (ι : Type) where
  | new (r : ι) (maxsz : Nat) (str : Option (List UInt8)) (len : Nat)
  | cat (dst : ι) (text : List UInt8)
  | concat (r start : ι) (args : List ι)
  | dup (dst : ι) (source : Option (List UInt8)) (sourcelen : Nat)
  | sub (r : ι) (source : List UInt8) (startindex length : Int) (substr : List UInt8)
      (sublen : Int)
  | trunc (s : ι) (len : Nat)
  | pushBack (dst : ι) (ch : UInt8)

/-- A call, with what is in the memory it gets. -/
structure CstrbufCall (ι : Type) where
  op : CstrbufOp ι
  junk : Nat → Mem UInt8

/-- The buffers, and what was written so far. -/
structure CstrbufHeap (ι : Type) where
  pool : ι → Option Cstrbuf
  log : List BufWrite

/-- No buffer. -/
def CstrbufHeap.empty : CstrbufHeap ι := ⟨fun _ => none, []⟩

/-- Keep a result. -/
def CstrbufHeap.put (h : CstrbufHeap ι) (r : ι) (made : Cstrbuf × List BufWrite) :
    CstrbufHeap ι :=
  ⟨Function.update h.pool r (some made.1), h.log ++ made.2⟩

@[simp] theorem CstrbufHeap.pool_put_self (h : CstrbufHeap ι) (r : ι)
    (made : Cstrbuf × List BufWrite) : (h.put r made).pool r = some made.1 :=
  Function.update_self _ _ _

theorem CstrbufHeap.pool_put_of_ne (h : CstrbufHeap ι) {i r : ι}
    (made : Cstrbuf × List BufWrite) (hi : i ≠ r) : (h.put r made).pool i = h.pool i :=
  Function.update_of_ne hi _ _

/-- One call.  `cstrbufTrunc` is not called with a null pointer. -/
def CstrbufHeap.call (h : CstrbufHeap ι) (c : CstrbufCall ι) : CstrbufHeap ι :=
  match c.op with
  | .new r maxsz str len => h.put r (cstrbufNew (c.junk 0) maxsz str len)
  | .cat dst text => h.put dst (cstrbufCat (c.junk 0) (h.pool dst) text)
  | .concat r start args => h.put r (cstrbufConcat c.junk (h.pool start) (args.map h.pool))
  | .dup dst source sourcelen =>
      h.put dst (cstrbufDup (c.junk 0) (h.pool dst) source sourcelen)
  | .sub r source startindex length substr sublen =>
      h.put r (cstrbufSub c.junk source startindex length substr sublen)
  | .trunc s len =>
      match h.pool s with
      | some b => h.put s (cstrbufTrunc b len)
      | none => h
  | .pushBack dst ch => h.put dst (cstrbufPushBack (c.junk 0) (h.pool dst) ch)

/-! ## Strings -/

/-- Where the result of a call goes. -/
def CstrbufOp.target : CstrbufOp ι → ι
  | .new r .. | .cat r .. | .concat r .. | .dup r .. | .sub r .. | .trunc r .. | .pushBack r .. => r

/-- The string that a call is for, when `shown` is what `cstrbufConcat` takes of a string. -/
def CstrbufOp.result (shown : List UInt8 → List UInt8) (s : ι → Option (List UInt8)) :
    CstrbufOp ι → Option (List UInt8)
  | .new _ _ str len => some (meantText str len)
  | .cat dst text => some ((s dst).getD [] ++ text)
  | .concat _ start args =>
      some (shown ((s start).getD []) ++ (untilNull (args.map s)).flatMap shown)
  | .dup _ source sourcelen => some (meantText source sourcelen)
  | .sub _ source startindex length substr sublen =>
      some ((cstr source).take startindex.toNat ++ substr.take sublen.toNat ++
        (cstr source).drop (startindex + length).toNat)
  | .trunc d len => (s d).map (·.take len)
  | .pushBack dst ch => some ((s dst).getD [] ++ [ch])

/-- One call, on strings. -/
def stringsCall (shown : List UInt8 → List UInt8) (s : ι → Option (List UInt8))
    (c : CstrbufCall ι) : ι → Option (List UInt8) :=
  Function.update s c.op.target (c.op.result shown s)

/-- What a caller sees to. -/
def CstrbufOp.ArgsOk (s : ι → Option (List UInt8)) : CstrbufOp ι → Prop
  | .new _ maxsz str len => FitsUb4 maxsz ∧ Given str len
  | .cat _ _ => True
  | .concat _ _ _ => True
  | .dup dst source sourcelen => Given source sourcelen ∧
      ((s dst).isSome = true → source = none → meantLength source sourcelen = 0)
  | .sub _ source startindex length substr sublen => 0 ∈ source ∧ (cstr source).length < 2 ^ 27 ∧
      0 ≤ startindex ∧ 0 ≤ length ∧ startindex + length ≤ (cstr source).length ∧
      0 ≤ sublen ∧ sublen ≤ substr.length
  | .trunc d _ => (s d).isSome = true
  | .pushBack _ _ => True

/-- A call that a caller may make: the arguments are right, and the string is not too long. -/
structure Admits (shown : List UInt8 → List UInt8) (s : ι → Option (List UInt8))
    (c : CstrbufCall ι) : Prop where
  args : c.op.ArgsOk s
  short : ∀ t ∈ c.op.result shown s, t.length < 2 ^ 27

/-! ## Refinement -/

/-- The buffers are the strings, of sound sizes, and nothing was written out of place. -/
structure Refines (h : CstrbufHeap ι) (s : ι → Option (List UInt8)) : Prop where
  contents : ∀ i, (h.pool i).map Cstrbuf.contents = s i
  sized : ∀ i, ∀ b ∈ h.pool i, b.Sized
  inside : ∀ w ∈ h.log, w.Inside

omit [DecidableEq ι] in
theorem refines_empty : Refines (.empty : CstrbufHeap ι) fun _ => none where
  contents := fun _ => rfl
  sized := fun _ _ hb => nomatch hb
  inside := fun _ hw => nomatch hw

section Refines

variable {h : CstrbufHeap ι} {s : ι → Option (List UInt8)}

omit [DecidableEq ι] in
theorem Refines.textOf_eq (hr : Refines h s) (i : ι) : textOf (h.pool i) = (s i).getD [] := by
  rw [← hr.contents i]
  cases h.pool i with
  | none => rfl
  | some b => rfl

omit [DecidableEq ι] in
/-- The arguments before the first null pointer, as they are printed. -/
theorem Refines.flatMap_printed (hr : Refines h s) (args : List ι) :
    (untilNull (args.map h.pool)).flatMap (printed <| some ·)
      = (untilNull (args.map s)).flatMap cstr := by
  induction args with
  | nil => rfl
  | cons i args ih =>
      rw [List.map_cons, List.map_cons, ← hr.contents i]
      cases h.pool i with
      | none => rfl
      | some b =>
          rw [Option.map_some, untilNull, untilNull, List.flatMap_cons, List.flatMap_cons, ih]
          rfl

/-- A result that is kept. -/
theorem Refines.put (hr : Refines h s) (r : ι) {made : Cstrbuf × List BufWrite}
    {t : List UInt8} (hmade : Makes made t) :
    Refines (h.put r made) (Function.update s r (some t)) where
  contents := by
    intro i
    by_cases hi : i = r
    · subst hi
      rw [h.pool_put_self, Function.update_self, Option.map_some, hmade.contents_eq]
    · rw [h.pool_put_of_ne made hi, Function.update_of_ne hi, hr.contents i]
  sized := by
    intro i b hb
    by_cases hi : i = r
    · subst hi
      rw [h.pool_put_self] at hb
      exact Option.mem_some.mp hb ▸ hmade.sized
    · rw [h.pool_put_of_ne made hi] at hb
      exact hr.sized i b hb
  inside := List.forall_mem_append.mpr ⟨hr.inside, hmade.inside⟩

/-- Each call does to the buffers what it does to the strings. -/
theorem Refines.call (hr : Refines h s) {c : CstrbufCall ι} (hc : Admits cstr s c) :
    Refines (h.call c) (stringsCall cstr s c) := by
  obtain ⟨op, junk⟩ := c
  obtain ⟨hargs, hshort⟩ := hc
  cases op with
  | new r maxsz str len =>
      obtain ⟨hmaxsz, hgiven⟩ := hargs
      exact hr.put r (cstrbufNew_makes (junk 0) hmaxsz hgiven)
  | cat dst text =>
      have hlen := hshort _ rfl
      rw [← hr.textOf_eq dst] at hlen
      have hmade := cstrbufCat_makes (junk 0) (hr.sized dst) hlen
      rw [hr.textOf_eq dst] at hmade
      exact hr.put dst hmade
  | concat r start args =>
      have hlen := hshort _ rfl
      rw [← hr.textOf_eq start, ← printed_eq, ← hr.flatMap_printed args] at hlen
      have hmade := cstrbufConcat_makes junk hlen
      rw [hr.flatMap_printed args, printed_eq, hr.textOf_eq start] at hmade
      exact hr.put r hmade
  | dup dst source sourcelen =>
      obtain ⟨hgiven, hnull⟩ := hargs
      refine hr.put dst (cstrbufDup_makes (junk 0) (hr.sized dst) hgiven ?_)
      intro hsome
      apply hnull
      rw [← hr.contents dst, Option.isSome_map]
      exact hsome
  | sub r source startindex length substr sublen =>
      obtain ⟨-, hsource, hstart, hlength, hslice, hsub, hsublen⟩ := hargs
      obtain ⟨i, rfl⟩ := Int.eq_ofNat_of_zero_le hstart
      obtain ⟨n, rfl⟩ := Int.eq_ofNat_of_zero_le hlength
      obtain ⟨m, rfl⟩ := Int.eq_ofNat_of_zero_le hsub
      have hfits : i + n ≤ (cstr source).length := by omega
      have hsubfits : m ≤ substr.length := by omega
      have hlen := hshort _ rfl
      have hoff : ((i : Int) + n).toNat = i + n := by omega
      simp only [List.length_append, List.length_take, List.length_drop, Int.toNat_natCast,
        hoff] at hlen
      have hmade := cstrbufSub_makes junk hfits hsubfits hsource (by omega)
      refine hr.put r ?_
      rw [Int.toNat_natCast, Int.toNat_natCast, hoff]
      exact hmade
  | trunc d len =>
      have hd := hr.contents d
      cases hpool : h.pool d with
      | none =>
          rw [hpool] at hd
          have hsome : (s d).isSome = true := hargs
          rw [← hd] at hsome
          cases hsome
      | some b =>
          rw [hpool] at hd
          have hput := hr.put d (cstrbufTrunc_makes (hr.sized d b hpool) len)
          simp only [CstrbufHeap.call, hpool, stringsCall, CstrbufOp.target, CstrbufOp.result,
            ← hd, Option.map_some]
          exact hput
  | pushBack dst ch =>
      have hlen := hshort _ rfl
      rw [← hr.textOf_eq dst] at hlen
      have hmade := cstrbufPushBack_makes (junk 0) ch (hr.sized dst) hlen
      rw [hr.textOf_eq dst] at hmade
      exact hr.put dst hmade

end Refines

/-! ## Strings without a NUL -/

/-- The text that a call brings has no NUL. -/
def CstrbufOp.NulFree : CstrbufOp ι → Prop
  | .new _ _ str len => ∀ c ∈ meantText str len, c ≠ 0
  | .cat _ text => ∀ c ∈ text, c ≠ 0
  | .concat _ _ _ => True
  | .dup _ source sourcelen => ∀ c ∈ meantText source sourcelen, c ≠ 0
  | .sub _ _ _ _ substr sublen => ∀ c ∈ substr.take sublen.toNat, c ≠ 0
  | .trunc _ _ => True
  | .pushBack _ ch => ch ≠ 0

/-- No string has a NUL. -/
def AllNulFree (s : ι → Option (List UInt8)) : Prop := ∀ i, ∀ t ∈ s i, ∀ c ∈ t, c ≠ 0

section NulFree

variable {s : ι → Option (List UInt8)}

omit [DecidableEq ι] in
theorem AllNulFree.getD (hs : AllNulFree s) (i : ι) : ∀ c ∈ (s i).getD [], c ≠ 0 := by
  cases hi : s i with
  | none => exact List.forall_mem_nil _
  | some t => exact hs i t hi

omit [DecidableEq ι] in
theorem AllNulFree.untilNull (hs : AllNulFree s) (args : List ι) :
    ∀ t ∈ untilNull (args.map s), ∀ c ∈ t, c ≠ 0 := by
  induction args with
  | nil => exact List.forall_mem_nil _
  | cons i args ih =>
      rw [List.map_cons]
      cases hi : s i with
      | none => exact List.forall_mem_nil _
      | some t => exact List.forall_mem_cons.mpr ⟨hs i t hi, ih⟩

omit [DecidableEq ι] in
/-- All of each is taken. -/
theorem AllNulFree.result_cstr (hs : AllNulFree s) (op : CstrbufOp ι) :
    op.result cstr s = op.result id s := by
  cases op with
  | concat r start args =>
      have hargs : (Convd.untilNull (args.map s)).flatMap cstr
          = (Convd.untilNull (args.map s)).flatMap id :=
        List.flatMap_congr fun t ht => cstr_eq_self (hs.untilNull args t ht)
      rw [CstrbufOp.result, CstrbufOp.result, cstr_eq_self (hs.getD start), hargs]
      rfl
  | new r maxsz str len => rfl
  | cat dst text => rfl
  | dup dst source sourcelen => rfl
  | sub r source startindex length substr sublen => rfl
  | trunc d len => rfl
  | pushBack dst ch => rfl

omit [DecidableEq ι] in
/-- What a call makes of them has no NUL either. -/
theorem AllNulFree.result (hs : AllNulFree s) {op : CstrbufOp ι} (hop : op.NulFree) :
    ∀ t ∈ op.result cstr s, ∀ c ∈ t, c ≠ 0 := by
  intro t ht
  cases op with
  | new r maxsz str len =>
      cases ht
      exact hop
  | cat dst text =>
      cases ht
      exact List.forall_mem_append.mpr ⟨hs.getD dst, hop⟩
  | concat r start args =>
      cases ht
      refine List.forall_mem_append.mpr ⟨fun c hc => ne_zero_of_mem_cstr hc, fun c hc => ?_⟩
      obtain ⟨t, -, hct⟩ := List.mem_flatMap.mp hc
      exact ne_zero_of_mem_cstr hct
  | dup dst source sourcelen =>
      cases ht
      exact hop
  | sub r source startindex length substr sublen =>
      cases ht
      refine List.forall_mem_append.mpr ⟨List.forall_mem_append.mpr ⟨fun c hc => ?_, hop⟩, ?_⟩
      · exact ne_zero_of_mem_cstr (List.mem_of_mem_take hc)
      · intro c hc
        exact ne_zero_of_mem_cstr (List.mem_of_mem_drop hc)
  | trunc d len =>
      obtain ⟨u, hu, rfl⟩ := Option.map_eq_some_iff.mp ht
      intro c hc
      exact hs d u hu c (List.mem_of_mem_take hc)
  | pushBack dst ch =>
      cases ht
      exact List.forall_mem_append.mpr ⟨hs.getD dst, List.forall_mem_singleton.mpr hop⟩

theorem AllNulFree.call (hs : AllNulFree s) {c : CstrbufCall ι} (hc : c.op.NulFree) :
    AllNulFree (stringsCall cstr s c) := by
  intro i t ht
  by_cases hi : i = c.op.target
  · subst hi
    rw [stringsCall, Function.update_self] at ht
    exact hs.result hc t ht
  · rw [stringsCall, Function.update_of_ne hi] at ht
    exact hs i t ht

/-- On strings without a NUL it does not matter how the arguments are taken. -/
theorem AllNulFree.foldl_stringsCall {calls : List (CstrbufCall ι)} (hs : AllNulFree s)
    (hcalls : ∀ c ∈ calls, c.op.NulFree) :
    calls.foldl (stringsCall cstr) s = calls.foldl (stringsCall id) s := by
  induction calls generalizing s with
  | nil => rfl
  | cons c calls ih =>
      obtain ⟨hc, hrest⟩ := List.forall_mem_cons.mp hcalls
      have hone : stringsCall cstr s c = stringsCall id s c := by
        rw [stringsCall, stringsCall, hs.result_cstr]
      rw [List.foldl_cons, List.foldl_cons, ← hone]
      exact ih (hs.call hc) hrest

end NulFree

/-! ## Runs -/

/-- A buffer and a letter, put together with the buffer again. -/
def twiceCalls : List (CstrbufCall Nat) :=
  [⟨.new 0 0 (some (ascii "ab" ++ [0])) cstrbufErrorSizeLen, fun _ _ => 7⟩,
    ⟨.pushBack 0 99, fun _ _ => 7⟩, ⟨.concat 1 0 [0], fun _ _ => 7⟩]

/-- The texts that are printed have no NUL. -/
def CstrbufOp.Printable : CstrbufOp ι → Prop
  | .cat _ text => ∀ c ∈ text, c ≠ 0
  | .pushBack _ ch => ch ≠ 0
  | .new .. | .concat .. | .dup .. | .sub .. | .trunc .. => True

/-- Three bytes with a NUL among them, of which `cstrbufConcat` takes one. -/
def nulCalls : List (CstrbufCall Nat) :=
  [⟨.new 0 0 (some [97, 0, 98]) 3, fun _ _ => 7⟩, ⟨.concat 1 0 [], fun _ _ => 7⟩]

end Convd
