/-
# `Convd.OutFileSize` — what is stored in `*outfilesize`

`convd_conv_file` counts in `outfdsize` what its loop writes.  The head goes out before the
loop, by a write of its own, and is not counted:

    the output file    head ++ body
    `*outfilesize`     the length of the body

A file that could not be created is none of these: `CONVD_NOERROR` comes back all the same,
and nothing is stored.
-/
import Convd.XmlFileText

namespace Convd

open Loop

variable {σ : Type}

/-! ## The loop -/

section Loop

variable {host : Endian} {e : Env} {ic : Iconv σ}

/-- The counter, and what has been written behind `head`, agree. -/
structure Counts (head : List UInt8) (outfdsize : Nat) (out body : List UInt8) : Prop where
  outfdsize_eq : outfdsize = body.length % 2 ^ 64
  out_eq : out = head ++ body

theorem Counts.written {head out body bytes : List UInt8} {outfdsize : Nat}
    (h : Counts head outfdsize out body) :
    Counts head ((outfdsize + bytes.length) % 2 ^ 64) (out ++ bytes) (body ++ bytes) where
  outfdsize_eq := by rw [h.outfdsize_eq, Nat.mod_add_mod, List.length_append]
  out_eq := by rw [h.out_eq, List.append_assoc]

/-- A loop that ends well stores the size of what it has written, and not of the head. -/
theorem outfilesize_of_returns {head body : List UInt8} {st : LoopState σ} {r : FileResult}
    (hL : st.cpos.linesize ≠ 0xFFFFFFFF) (hst : Counts head st.outfdsize st.sys.out body)
    (h : Returns (convTurn host e ic) st r) (hret : r.ret = convdNoerror) :
    ∃ body outfdsize, r.outfilesize = some outfdsize ∧ Counts head outfdsize r.sys.out body := by
  obtain ⟨n, hn⟩ := h
  refine run_invariant
    (P := fun st : LoopState σ => st.cpos.linesize ≠ 0xFFFFFFFF ∧
      ∃ body, Counts head st.outfdsize st.sys.out body)
    (Q := fun r => r.ret = convdNoerror → ∃ body outfdsize, r.outfilesize = some outfdsize ∧
      Counts head outfdsize r.sys.out body) ?_ ?_ ⟨hL, body, hst⟩ hn hret
  · rintro st₁ st₂ ⟨hL₁, body₁, hst₁⟩ hagain
    have hturn := @convTurn_outcome σ host e ic st₁ hL₁
    rw [hagain] at hturn
    cases hturn with
    | written input out st' evs evs' _ _ _ _ _ hsize hfd _ hout =>
        refine ⟨hsize ▸ hL₁, body₁ ++ out, ?_⟩
        rw [hfd, hout]
        exact hst₁.written
  · rintro st₁ r₁ ⟨hL₁, body₁, hst₁⟩ hleave hret₁
    have hturn := @convTurn_outcome σ host e ic st₁ hL₁
    rw [hleave] at hturn
    cases hturn with
    | fileFails => exact absurd hret₁ (convdErr_ne convdErrFile (by decide))
    | finished s evs _ hout =>
        refine ⟨body₁, st₁.outfdsize, rfl, ?_⟩
        show Counts head st₁.outfdsize s.out body₁
        rw [hout]
        exact hst₁
    | refused => exact absurd hret₁ (convdErr_ne convdErrIconv (by decide))
    | writeFails => exact absurd hret₁ (convdErr_ne convdErrFile (by decide))

end Loop

/-! ## The calls -/

/-- `file_write_new` succeeds, as it is called after the input was opened in `s`. -/
def CreatesOut (e : Env) (linesizemax : UInt32) (s : Sys) : Prop :=
  e.fails (ucsFileReadOpen e linesizemax s).2.tick = false

section Call

variable {host : Endian} {e : Env} {ic : Iconv σ} {cd : σ} {linesizemax : UInt32}
  {r : FileResult}

theorem OpenOutcome.ret_ne {s s' : Sys} {ret : Int}
    (h : OpenOutcome e linesizemax s (.error ret, s')) : ret ≠ convdNoerror := by
  cases h with
  | openFails _ => exact convdErr_ne convdErrFile (by decide)
  | encoding _ _ _ _ _ => exact convdErr_ne convdErrEncoding (by decide)
  | seekFails _ _ _ _ _ _ => exact convdErr_ne convdErrFile (by decide)

/-- What a call that returned `CONVD_NOERROR` has stored. -/
theorem outfilesize_cases {inoffset : Nat} {outhead : List UInt8} {s : Sys}
    (h : ConvFileReturnsFrom host e ic cd inoffset outhead linesizemax s r)
    (hret : r.ret = convdNoerror) :
    (¬ CreatesOut e linesizemax s ∧ r.outfilesize = none) ∨
      (CreatesOut e linesizemax s ∧ ∃ body outfdsize, r.outfilesize = some outfdsize ∧
        Counts (outhead.take (toUb4 outhead.length)) outfdsize r.sys.out body) := by
  obtain ⟨fuel, hfuel⟩ := h
  have hopen := ucsFileReadOpen_outcome e linesizemax s
  rcases hres : ucsFileReadOpen e linesizemax s with ⟨ret | cpos, s'⟩
  · rw [hres] at hopen
    simp only [convdConvFile, hres] at hfuel
    cases hfuel
    exact absurd hret hopen.ret_ne
  · rw [hres] at hopen
    have hcreates : CreatesOut e linesizemax s ↔ e.fails s'.tick = false := by
      rw [CreatesOut, hres]
    rw [hcreates]
    rcases hfail : e.fails s'.tick with _ | _
    · refine .inr ⟨rfl, ?_⟩
      have hcreate : fileWriteNew e s' = (true, { s'.did .create true with out := [] }) := by
        rw [fileWriteNew, hfail]
        rfl
      simp only [convdConvFile, hres, hcreate] at hfuel
      rcases writeHead_cases e outhead { s'.did .create true with out := [] } with
        ⟨t, evs, -, hwrite⟩ | ⟨k, t, evs, -, -, hwrite⟩
      · have hhead : (0 : Int) ≠ -1 := by decide
        simp only [hwrite, if_neg hhead, fileSeekCur] at hfuel
        refine @outfilesize_of_returns σ host e ic _ [] _ r ?_ ?_ ⟨fuel, hfuel⟩ hret
        · exact hopen.linesize_ne
        · refine ⟨rfl, ?_⟩
          rw [List.append_nil, Env.seek]
          split <;> rfl
      · simp only [hwrite, if_true] at hfuel
        cases hfuel
        exact absurd hret (convdErr_ne convdErrFile (by decide))
    · have hcreate : fileWriteNew e s' = (false, s'.did .create false) := by
        rw [fileWriteNew, if_pos hfail]
      simp only [convdConvFile, hres, hcreate] at hfuel
      cases hfuel
      exact .inl ⟨Bool.noConfusion, rfl⟩

/-- The size stored is that of the file when there is a file and no head in it. -/
theorem outfilesize_eq_iff {inoffset : Nat} {outhead : List UInt8} {s : Sys}
    (h : ConvFileReturnsFrom host e ic cd inoffset outhead linesizemax s r)
    (hret : r.ret = convdNoerror) (hsize : r.sys.out.length < 2 ^ 63) :
    r.outfilesize = some r.sys.out.length ↔
      CreatesOut e linesizemax s ∧ toUb4 outhead.length = 0 := by
  rcases outfilesize_cases h hret with ⟨hnot, hnone⟩ | ⟨hcreates, body, outfdsize, hstored, hcount⟩
  · rw [hnone]
    exact iff_of_false (fun h => nomatch h) fun h => hnot h.1
  · have hhead : toUb4 outhead.length ≤ outhead.length := Nat.mod_le _ _
    have hlen := congrArg List.length hcount.out_eq
    rw [List.length_append, List.length_take, Nat.min_eq_left hhead] at hlen
    rw [hstored, hcount.outfdsize_eq, and_iff_right hcreates, Option.some.injEq,
      Nat.mod_eq_of_lt (by omega)]
    omega

/-- A call on a file with a head is a call of `convd_conv_file` with the new head. -/
theorem ConvXmlfileReturns.convFile_head {tocode : List UInt8} {fuel : Nat} {headofflen : Int}
    {xmlhead : ConvXmlhead} {s : Sys} (h : ConvXmlfileReturns host e ic cd tocode linesizemax r)
    (hparse : xmlFileParseHead host e fuel ⟨.noneBom, e.heap⟩ Sys.init
      = some (headofflen, xmlhead, s)) (hret : r.ret = convdNoerror) :
    ConvFileReturnsFrom host e ic cd headofflen.toNat (xmlfileHead host e xmlhead tocode)
      linesizemax s r := by
  obtain ⟨fuel', hfuel⟩ := h
  rw [convdConvXmlfile] at hfuel
  rcases hparse' : xmlFileParseHead host e fuel' ⟨.noneBom, e.heap⟩ Sys.init with _ | parsed
  · rw [hparse'] at hfuel
    cases hfuel
  · obtain rfl := xmlFileParseHead_unique hparse' hparse
    rw [hparse'] at hfuel
    dsimp only at hfuel
    split_ifs at hfuel
    · exact ⟨fuel', hfuel⟩
    · cases hfuel
      exact absurd hret (convdErr_ne convdErrFile (by decide))

end Call

/-- In every call that succeeds, the size stored is that of the output file exactly when that
file was created and nothing was put ahead of what was converted: no head of the caller's, or
a code that no head is formatted for.  Sizes of files are `off64_t`. -/
theorem outfilesize_iff {host : Endian} {e : Env} {ic : Iconv σ} {cd : σ} {linesizemax : UInt32} :
    (∀ {inoffset : Nat} {outhead : List UInt8} {s : Sys} {r : FileResult},
      ConvFileReturnsFrom host e ic cd inoffset outhead linesizemax s r →
      r.ret = convdNoerror → r.sys.out.length < 2 ^ 63 →
      (r.outfilesize = some r.sys.out.length ↔
        CreatesOut e linesizemax s ∧ toUb4 outhead.length = 0)) ∧
    ∀ {tocode : List UInt8} {fuel : Nat} {headofflen : Int} {xmlhead : ConvXmlhead} {s : Sys}
      {r : FileResult},
      xmlFileParseHead host e fuel ⟨.noneBom, e.heap⟩ Sys.init = some (headofflen, xmlhead, s) →
      ConvXmlfileReturns host e ic cd tocode linesizemax r →
      r.ret = convdNoerror → r.sys.out.length < 2 ^ 63 →
      (r.outfilesize = some r.sys.out.length ↔
        CreatesOut e linesizemax s ∧ writesHead tocode = false) := by
  refine ⟨outfilesize_eq_iff, ?_⟩
  intro tocode fuel headofflen xmlhead s r hparse h hret hsize
  rw [outfilesize_eq_iff (h.convFile_head hparse hret) hret hsize]
  refine and_congr_right fun _ => ?_
  rcases hwrites : writesHead tocode with _ | _
  · have hnil : xmlfileHead host e xmlhead tocode = [] := by
      simp only [xmlfileHead, hwrites, Bool.false_eq_true, if_false]
    rw [hnil]
    exact iff_of_true rfl rfl
  · rw [xmlfileHead_eq hwrites]
    obtain ⟨hpos, hlt⟩ := (xmlhead.withEncoding tocode).text_ne_nil
    rw [toUb4_of_lt (by omega)]
    exact iff_of_false (Nat.ne_of_gt hpos) Bool.noConfusion

/-- A document that is a head and a letter. -/
def headedEnv : Env := .bytewise (ascii "<?xml version=\"1.0\"?>a") (by decide) fun _ => false

/-- The letter is copied, and so is the document without its head. -/
theorem outfilesize_iff_letter :
    (∃ r, ConvFileReturns .little letterEnv (.ofFun some) () 0 [] 64 r ∧
      (r.outfilesize = some r.sys.out.length ↔
        CreatesOut letterEnv 64 Sys.init ∧ toUb4 ([] : List UInt8).length = 0)) ∧
    ∃ s r, ConvXmlfileReturns .little headedEnv (.ofFun some) () (ascii "UCS-2") 64 r ∧
      (r.outfilesize = some r.sys.out.length ↔
        CreatesOut headedEnv 64 s ∧ writesHead (ascii "UCS-2") = false) := by
  have hrun : (convdConvFile .little letterEnv (.ofFun some) 4 () 0 [] 64 Sys.init).any (fun r =>
      decide (r.ret = convdNoerror ∧ r.sys.out.length < 2 ^ 63)) = true := by decide +kernel
  have hparse : (xmlFileParseHead .little headedEnv 32 ⟨.noneBom, headedEnv.heap⟩
      Sys.init).isSome := by decide +kernel
  have hxml : (convdConvXmlfile .little headedEnv (.ofFun some) 32 () (ascii "UCS-2") 64
      Sys.init).any (fun r =>
        decide (r.ret = convdNoerror ∧ r.sys.out.length < 2 ^ 63)) = true := by decide +kernel
  obtain ⟨r, hr, hok⟩ := (Option.any_eq_true _ _).mp hrun
  obtain ⟨⟨n, xmlhead, s⟩, hhead⟩ := Option.isSome_iff_exists.mp hparse
  obtain ⟨r', hr', hok'⟩ := (Option.any_eq_true _ _).mp hxml
  have hok := of_decide_eq_true hok
  have hok' := of_decide_eq_true hok'
  exact ⟨⟨r, ⟨4, hr⟩, outfilesize_iff.1 ⟨4, hr⟩ hok.1 hok.2⟩,
    s, r', ⟨32, hr'⟩, outfilesize_iff.2 hhead ⟨32, hr'⟩ hok'.1 hok'.2⟩

/-- Behind a head of one byte, a file of one letter: two bytes are written, and 1 is stored. -/
theorem outfilesize_leaves_head_out :
    ¬ ∀ {host : Endian} {e : Env} {ic : Iconv Unit} {cd : Unit} {linesizemax : UInt32}
      {inoffset : Nat} {outhead : List UInt8} {r : FileResult},
      ConvFileReturns host e ic cd inoffset outhead linesizemax r → r.ret = convdNoerror →
      r.sys.out.length < 2 ^ 63 → r.outfilesize = some r.sys.out.length := by
  intro h
  have hrun : (convdConvFile .little letterEnv (.ofFun some) 4 () 0 [65] 64 Sys.init).any (fun r =>
      decide (r.ret = convdNoerror ∧ r.sys.out.length < 2 ^ 63 ∧
        r.outfilesize ≠ some r.sys.out.length)) = true := by decide +kernel
  obtain ⟨r, hr, hbad⟩ := (Option.any_eq_true _ _).mp hrun
  have hbad := of_decide_eq_true hbad
  exact hbad.2.2 (h ⟨4, hr⟩ hbad.1 hbad.2.1)

end Convd
