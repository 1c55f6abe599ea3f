/-
# `Convd.CodeconvRun` — what the tool reports, and what it leaves

A run of `codeconv` goes one of four ways (`CodeconvOutcome`): it stops at an option, a parameter
is missing, there is no descriptor, or the file is converted.  Each of them ends, and what is
printed is what was done (`codeconvMain_reports`):

    [SUCCESS]     ↔   the options give all four parameters, there is a converter for the two codes,
                      and the conversion returned `CONVD_NOERROR`
                  ↔   the descriptor was given up, its converter closed

For a text file in UTF-8 or GB2312 the conversion is that of the characters
(`codeconvMain_transcodes`), and for a file whose name ends in `.xml` that of the characters of
the body, behind a new head (`codeconvMain_transcodes_xml`).
-/
import Convd.Codeconv
import Convd.ConvFileTurns
import Convd.XmlFileRound

namespace Convd

open Code CString Loop

variable {α σ : Type}

/-! ## The conversion -/

theorem toInt_toSizeT_of_lt {n : Nat} (h : n < 2 ^ 31) : toInt (toSizeT n) = n := by
  have hmod : (n : Int) % 2 ^ 64 = n := Int.emod_eq_of_lt (by omega) (by omega)
  rw [toSizeT, hmod, Int.toNat_natCast, toInt_of_lt h]

/-- The head of a file fits `headbuf`, so the scan of it ends. -/
theorem xmlFileParseHead_returns (host : Endian) (e : Env) (h : ConvXmlhead) (s : Sys) :
    ∃ fuel r, xmlFileParseHead host e fuel h s = some r := by
  have hends : ∀ x : ConvBuf, toInt x.blen ≤ xmlFileHeadbufSize →
      ∃ r, XmlTextParseHeadReturns host x r := by
    intro x hx
    refine xmlTextParseHead_returns_of_ends (.inl ?_)
    have hsizes : xmlFileHeadbufSize = 112 ∧ headbufSize = 128 := ⟨rfl, rfl⟩
    rw [headUnits, unitsFrom, List.length_map, List.length_range]
    refine (Nat.div_le_self _ _).trans ?_
    omega
  simp only [xmlFileParseHead]
  split
  · exact ⟨0, _, rfl⟩
  · rename_i s' _
    have hcount : toInt (toSizeT (fileReadbytes e .headbuf xmlFileHeadbufSize s').1)
        ≤ xmlFileHeadbufSize := by
      rcases fileReadbytes_cases e .headbuf xmlFileHeadbufSize s' rfl with
        ⟨t, evs, -, hread⟩ | ⟨k, t, evs, -, -, hread⟩
      · have hle := List.length_take_le xmlFileHeadbufSize (e.file.drop s'.pos)
        generalize (e.file.drop s'.pos).take xmlFileHeadbufSize = bytes at hread hle
        have hsize : xmlFileHeadbufSize = 112 := rfl
        have hcount : (fileReadbytes e .headbuf xmlFileHeadbufSize s').1 = toInt bytes.length := by
          rw [hread]
        rw [hcount, @toInt_of_lt bytes.length (by omega), toInt_toSizeT_of_lt (by omega)]
        omega
      · have hcount : (fileReadbytes e .headbuf xmlFileHeadbufSize s').1 = -1 := by
          rw [hread]
        rw [hcount, toInt_toSizeT_neg_one]
        decide
    obtain ⟨r, fuel, hr⟩ :=
      hends ⟨toSizeT (fileReadbytes e .headbuf xmlFileHeadbufSize s').1, _⟩ hcount
    exact ⟨fuel, _, Option.map_eq_some_iff.mpr ⟨r, hr, rfl⟩⟩

section Run

variable {host : Endian} {iconvOpen : List UInt8 → List UInt8 → Option σ} {ic : Iconv σ}
  {world : World} {junk : Nat → Mem UInt8} {opts : List CliOption}
  {given : Parameter → List UInt8}

theorem convFile_returns (host : Endian) (e : Env) (ic : Iconv σ) (cd : σ) (inoffset : Nat)
    (outhead : List UInt8) (linesizemax : UInt32) (s : Sys) :
    ∃ r, ConvFileReturnsFrom host e ic cd inoffset outhead linesizemax s r := by
  have hcall := convdConvFile_outcome host e ic cd inoffset outhead linesizemax s
  generalize hdef : (fun fuel => convdConvFile host e ic fuel cd inoffset outhead linesizemax s)
    = call at hcall
  have hends : ∃ r fuel, call fuel = some r := by
    cases hcall with
    | openFails ret s' _ => exact ⟨_, 0, rfl⟩
    | createFails cpos s' _ _ => exact ⟨_, 0, rfl⟩
    | headFails cpos s' k t evs _ _ _ => exact ⟨_, 0, rfl⟩
    | loop cpos s' ok pos t evs hopen _ _ =>
        exact returns_of_linesize hopen.linesize_ne (le_toSb8 _) (toSb8_lt _)
  rwa [← hdef] at hends

theorem convXmlfile_returns (host : Endian) (e : Env) (ic : Iconv σ) (cd : σ)
    (tocode : List UInt8) (linesizemax : UInt32) :
    ∃ r, ConvXmlfileReturns host e ic cd tocode linesizemax r := by
  obtain ⟨n, ⟨headofflen, xmlhead, s⟩, hparse⟩ :=
    xmlFileParseHead_returns host e ⟨.noneBom, e.heap⟩ Sys.init
  by_cases hpos : headofflen > 0
  · obtain ⟨r, m, hr⟩ := convFile_returns host e ic cd headofflen.toNat
      (xmlfileHead host e xmlhead tocode) linesizemax s
    refine ⟨r, max n m, ?_⟩
    rw [convdConvXmlfile, xmlFileParseHead_mono (Nat.le_max_left n m) hparse]
    dsimp only
    rw [if_pos hpos]
    exact convdConvFile_mono (Nat.le_max_right n m) hr
  · refine ⟨⟨convdErrFile, none, s⟩, n, ?_⟩
    rw [convdConvXmlfile, hparse]
    exact if_neg hpos

/-- What the conversion of `infile` to `outfile` returns, by which function. -/
inductive Conversion (host : Endian) (ic : Iconv σ) (world : World) (cd : σ)
    (tocode infile outfile : List UInt8) : String → FileResult → Prop where
  | xml {r : FileResult} : ascii ".xml" <:+ infile →
      ConvXmlfileReturns host (world infile outfile) ic cd tocode 1024 r →
      Conversion host ic world cd tocode infile outfile "convd_conv_xmlfile" r
  | text {r : FileResult} : ¬ ascii ".xml" <:+ infile →
      ConvFileReturns host (world infile outfile) ic cd 0 [] 1024 r →
      Conversion host ic world cd tocode infile outfile "convd_conv_file" r

theorem Conversion.unique {cd : σ} {tocode infile outfile : List UInt8}
    {function function' : String} {r r' : FileResult}
    (h : Conversion host ic world cd tocode infile outfile function r)
    (h' : Conversion host ic world cd tocode infile outfile function' r') : r = r' := by
  cases h with
  | xml hxml hr =>
      cases h' with
      | xml _ hr' => exact hr.unique hr'
      | text hnot => exact absurd hxml hnot
  | text hnot hr =>
      cases h' with
      | xml hxml => exact absurd hxml hnot
      | text _ hr' => exact hr.unique hr'

/-- The conversion ends. -/
theorem convertFile_returns {ps : Parameters} (hps : ps.Hold given)
    (hplain : ∀ p, PlainArg (given p)) (cvd : ConvDescriptor σ) :
    ∃ fuel function r, convertFile host ic world fuel cvd ps = some (function, r) ∧
      Conversion host ic world cvd.cd (convdTocode cvd) (given .inputFile) (given .outputFile)
        function r := by
  have hxml : ps.inputFile.endsWith ".xml" = true ↔ _ :=
    hps.inputFile.endsWith_iff (hplain .inputFile) (by decide +kernel)
  have hin := hps.inputFile.text_eq (hplain .inputFile)
  have hout := hps.outputFile.text_eq (hplain .outputFile)
  simp only [convertFile, hin, hout]
  by_cases hends : ps.inputFile.endsWith ".xml" = true
  · obtain ⟨r, fuel, hr⟩ := convXmlfile_returns host (world (given .inputFile) (given .outputFile))
      ic cvd.cd (convdTocode cvd) 1024
    refine ⟨fuel, _, r, ?_, .xml (hxml.mp hends) ⟨fuel, hr⟩⟩
    rw [if_pos hends, hr]
    rfl
  · obtain ⟨r, fuel, hr⟩ := convFile_returns host (world (given .inputFile) (given .outputFile)) ic
      cvd.cd 0 [] 1024 Sys.init
    refine ⟨fuel, _, r, ?_, .text (fun hsuf => hends (hxml.mpr hsuf)) ⟨fuel, hr⟩⟩
    rw [if_neg hends, hr]
    rfl

/-! ## Every way the tool can go -/

theorem createOpens_opened {suffix : Int} {tocodeat : Nat} {codebuf : ConvBuf} {cut : Option Nat}
    {log : List Span} {cvd : ConvDescriptor σ}
    (h : (createOpens iconvOpen suffix tocodeat codebuf cut log).outcvd = some cvd) :
    iconvOpen (codebuf.strAt tocodeat) (codebuf.strAt 0) = some cvd.cd ∧
      (createOpens iconvOpen suffix tocodeat codebuf cut log).obj = some (refcObjectNew true) := by
  simp only [createOpens] at h ⊢
  rcases hopen : iconvOpen (codebuf.strAt tocodeat) (codebuf.strAt 0) with _ | cd
  · rw [hopen] at h
    exact absurd h createFails_outcvd
  · rw [hopen] at h
    cases h
    exact ⟨rfl, rfl⟩

/-- `convd_create` for two codes: a descriptor of what `iconv_open` gave, or an error and no
converter. -/
theorem convdCreate_cases {f t text : List UInt8} {suffix : Int} {r : CreateResult σ}
    (hr : convdCreate iconvOpen (some f) (some t) suffix = r) (hf : ∀ c ∈ f, c ≠ 0)
    (ht : ∀ c ∈ t, c ≠ 0) (htext : suffixText suffix = some text) :
    (r.ret = convdNoerror ∧ FitsCode f ∧ FitsCode t ∧
      r.opens = [(cstrToupper t ++ text, cstrToupper f)] ∧ r.obj = some (refcObjectNew true) ∧
      ∃ cvd, r.outcvd = some cvd ∧
        iconvOpen (cstrToupper t ++ text) (cstrToupper f) = some cvd.cd ∧
        convdTocode cvd = cstrToupper t) ∨
    (r.ret ≠ convdNoerror ∧ (∀ obj ∈ r.obj, obj.log = givenUp false) ∧
      ∀ cd, FitsCode f → FitsCode t →
        iconvOpen (cstrToupper t ++ text) (cstrToupper f) ≠ some cd) := by
  have hcall := convdCreate_outcome iconvOpen (some f) (some t) suffix
  generalize hdef : convdCreate iconvOpen (some f) (some t) suffix = call at hr hcall
  obtain rfl := hr
  cases hcall with
  | badFrom hnot =>
      exact .inr ⟨convdErr_ne convdErrFromcode (by decide), by simp,
        fun _ h => absurd h (hnot f rfl)⟩
  | badTo hnot =>
      exact .inr ⟨convdErr_ne convdErrTocode (by decide), by simp,
        fun _ _ h => absurd h (hnot t rfl)⟩
  | badSuffix _ _ _ _ _ _ hnone => exact nomatch htext.symm.trans hnone
  | opens f' t' text' hargs =>
      obtain rfl := Option.some.inj hargs.from_eq
      obtain rfl := Option.some.inj hargs.to_eq
      obtain rfl := Option.some.inj (htext.symm.trans hargs.text_eq)
      obtain ⟨hlen, hnul⟩ := suffixText_length_le htext
      have hto : ∀ c ∈ cstrToupper t ++ text, c ≠ 0 := by
        intro c hc
        rcases List.mem_append.mp hc with hc | hc
        · exact cstrToupper_ne_zero ht c hc
        · exact hnul c hc
      have hstandsto := (@standsAt_to f t text hlen).strAt_eq hto
      have hstandsfrom := (standsAt_from f t text).strAt_eq (cstrToupper_ne_zero hf)
      rcases createOpens_cases iconvOpen suffix (openedCut f t text) (openedLog f t text) hstandsto
        hstandsfrom with ⟨hnone, heq⟩ | ⟨cvd, -, heq⟩
      · rw [heq]
        exact .inr ⟨convdErr_ne convdErrIconv (by decide),
          fun obj hobj => (createFails_obj _ _ _ obj hobj).2,
          fun _ _ _ hsome => nomatch hnone.symm.trans hsome⟩
      · have hcvd : (convdCreate iconvOpen (some f) (some t) suffix).outcvd = some cvd := by
          rw [hdef, heq]
        obtain ⟨hopen, -⟩ := createOpens_opened (hdef ▸ hcvd)
        rw [hstandsto, hstandsfrom] at hopen
        rw [heq]
        exact .inl ⟨rfl, hargs.from_fits, hargs.to_fits, rfl, rfl, cvd, rfl, hopen,
          (created_of_outcvd hf ht hcvd).tocode_eq⟩

-- the messages, as they are printed

theorem notSpecified_eq (p : Parameter) : notSpecified p =
    ⟨-1, .text ("[ERROR] Parameter Not Specified: --" ++ p.name ++ "=?\n")⟩ := by
  cases p <;> rfl

theorem createError_eq (ret : Int) : createError ret =
    ⟨-1, .text ("[ERROR] convd_create error(" ++ toString ret ++ ")\n")⟩ := by
  simp only [createError, exitError, ← String.append_assoc]
  rw [String.append_assoc]
  rfl

theorem exitError_conv (function : String) (ret : Int) :
    exitError (function ++ " error(" ++ toString ret ++ ").") =
      ⟨-1, .text ("[ERROR] " ++ function ++ " error(" ++ toString ret ++ ").\n")⟩ := by
  simp only [exitError, ← String.append_assoc]
  rw [String.append_assoc]
  rfl

/-- The tool when it has converted. -/
def convertedResult (given : Parameter → List UInt8) (code text : List UInt8) (function : String)
    (r : FileResult) : CodeconvResult :=
  if r.ret ≠ 0 then
    ⟨⟨-1, .text ("[ERROR] " ++ function ++ " error(" ++ toString r.ret ++ ").\n")⟩,
      [(cstrToupper code ++ text, cstrToupper (given .fromCode))], some (refcObjectNew true), r.sys⟩
  else
    ⟨⟨0, .text "[SUCCESS] file converted successfully.\n"⟩,
      [(cstrToupper code ++ text, cstrToupper (given .fromCode))],
      some ⟨0, true, givenUp true⟩, r.sys⟩

/-- Options with which there is a converter. -/
structure Opens (iconvOpen : List UInt8 → List UInt8 → Option σ) (opts : List CliOption)
    (given : Parameter → List UInt8) (code text : List UInt8) (cd : σ) : Prop where
  asks : Asks opts given
  target : Target (given .toCode) code text
  from_fits : FitsCode (given .fromCode)
  to_fits : FitsCode code
  opened : iconvOpen (cstrToupper code ++ text) (cstrToupper (given .fromCode)) = some cd

/-- Every way the tool can go, with what it calls and leaves. -/
inductive CodeconvOutcome (host : Endian) (iconvOpen : List UInt8 → List UInt8 → Option σ)
    (ic : Iconv σ) (world : World) (opts : List CliOption) : CodeconvResult → Prop where
  | stopped (exit : Exit) : opts.findSome? CliOption.stops = some exit →
      CodeconvOutcome host iconvOpen ic world opts ⟨exit, [], none, Sys.init⟩
  | missing (p : Parameter) : opts.findSome? CliOption.stops = none → firstMissing opts = some p →
      CodeconvOutcome host iconvOpen ic world opts
        ⟨⟨-1, .text ("[ERROR] Parameter Not Specified: --" ++ p.name ++ "=?\n")⟩,
          [], none, Sys.init⟩
  | notCreated (given : Parameter → List UInt8) (code text : List UInt8) (suffix : Int)
      (created : CreateResult σ) : Asks opts given → Target (given .toCode) code text →
      suffixText suffix = some text →
      created = convdCreate iconvOpen (some (given .fromCode)) (some code) suffix →
      created.ret ≠ convdNoerror → (∀ cd, ¬ Opens iconvOpen opts given code text cd) →
      (∀ obj ∈ created.obj, obj.log = givenUp false) →
      CodeconvOutcome host iconvOpen ic world opts
        ⟨⟨-1, .text ("[ERROR] convd_create error(" ++ toString created.ret ++ ")\n")⟩,
          created.opens, created.obj, Sys.init⟩
  | converted (given : Parameter → List UInt8) (code text : List UInt8) (cd : σ)
      (function : String) (r : FileResult) : Opens iconvOpen opts given code text cd →
      Conversion host ic world cd (cstrToupper code) (given .inputFile) (given .outputFile) function
        r →
      CodeconvOutcome host iconvOpen ic world opts (convertedResult given code text function r)

theorem codeconvWith_outcome {ps : Parameters} (hps : ps.Hold given) (hasks : Asks opts given)
    (hplain : ∀ p, PlainArg (given p)) : ∃ fuel r,
      codeconvWith host iconvOpen ic world fuel ps = some r ∧
        CodeconvOutcome host iconvOpen ic world opts r := by
  obtain ⟨code, text, htarget, hcode, hplaincode, htext⟩ :=
    cutSuffix_target hps.toCode (hplain .toCode)
  have hfrom := hps.fromCode.text_eq (hplain .fromCode)
  have hto := hcode.text_eq hplaincode
  generalize hr : convdCreate iconvOpen (some (given .fromCode)) (some code) (cutSuffix ps.toCode).2
    = created
  rcases convdCreate_cases hr (hplain .fromCode).ne_zero hplaincode.ne_zero htext with
    ⟨hret, hfitf, hfitt, hopens, hobj, cvd, hcvd, hopen, htocode⟩ | ⟨hret, hobj, hnot⟩
  · obtain ⟨fuel, function, r, hconvert, hconversion⟩ :=
      @convertFile_returns σ host ic world given ps hps hplain cvd
    rw [htocode] at hconversion
    refine ⟨fuel, _, ?_, .converted given code text cvd.cd function r
      ⟨hasks, htarget, hfitf, hfitt, hopen⟩ hconversion⟩
    simp only [codeconvWith, hfrom, hto, hr]
    rw [if_neg (not_not_intro hret), hcvd, Option.bind_some, hconvert, hopens, hobj]
    simp only [Option.map_some, exitError_conv]
    rfl
  · refine ⟨0, _, ?_, .notCreated given code text _ created hasks htarget htext hr.symm hret
      (fun cd h => hnot cd h.from_fits h.to_fits h.opened) hobj⟩
    simp only [codeconvWith, hfrom, hto, hr, createError_eq]
    exact if_pos hret

/-- Every call of the tool ends, one of these ways. -/
theorem codeconvMain_outcome (hopts : PlainOptions opts) :
    ∃ r, CodeconvEnds host iconvOpen ic world junk opts r ∧
      CodeconvOutcome host iconvOpen ic world opts r := by
  rcases parseArguments_cases junk Arguments.hold_init hopts with
    ⟨exit, hstops, hparse⟩ | ⟨hgoes, args, hparse, hargs⟩
  · exact ⟨_, ⟨0, by rw [codeconvMain, hparse]⟩, .stopped exit hstops⟩
  · rw [List.nil_append] at hargs
    rcases specified_cases hargs with ⟨p, hmissing, hspec⟩ | ⟨given, ps, hlast, hspec, hps⟩
    · refine ⟨_, ⟨0, ?_⟩, .missing p hgoes hmissing⟩
      simp only [codeconvMain, hparse, hspec, notSpecified_eq]
    · have hasks : Asks opts given := ⟨hgoes, hlast⟩
      obtain ⟨fuel, r, hr, houtcome⟩ := @codeconvWith_outcome σ host iconvOpen ic world opts
        given ps hps hasks (hasks.plain hopts)
      refine ⟨r, ⟨fuel, ?_⟩, houtcome⟩
      simp only [codeconvMain, hparse, hspec, hr]

theorem Target.ne_zero {code text : List UInt8} (h : Target (given .toCode) code text)
    (hplain : PlainOptions opts) (hasks : Asks opts given) : ∀ c ∈ code, c ≠ 0 :=
  fun c hc => (hasks.plain hplain .toCode).ne_zero c (h.code_prefix.subset hc)

/-- There is one way to read the options. -/
theorem Opens.determined {given' : Parameter → List UInt8} {code code' text text' : List UInt8}
    {cd : σ} (h : Opens iconvOpen opts given code text cd) (hasks : Asks opts given')
    (htarget : Target (given' .toCode) code' text') :
    given' = given ∧ code' = code ∧ text' = text := by
  obtain rfl := h.asks.unique hasks
  exact ⟨rfl, h.target.unique htarget⟩

/-- With a converter the tool converts. -/
theorem CodeconvOutcome.of_opens {code text : List UInt8} {cd : σ} {r : CodeconvResult}
    (h : CodeconvOutcome host iconvOpen ic world opts r)
    (hopens : Opens iconvOpen opts given code text cd) :
    ∃ function fr, Conversion host ic world cd (cstrToupper code) (given .inputFile)
      (given .outputFile) function fr ∧ r = convertedResult given code text function fr := by
  cases h with
  | stopped exit hstops => exact nomatch hopens.asks.goes_on.symm.trans hstops
  | missing p _ hmissing =>
      exact nomatch (firstMissing_eq_none hopens.asks.last).symm.trans hmissing
  | notCreated given' code' text' suffix created hasks htarget _ _ _ hnot _ =>
      obtain ⟨rfl, rfl, rfl⟩ := hopens.determined hasks htarget
      exact absurd hopens (hnot cd)
  | converted given' code' text' cd' function fr hopens' hconversion =>
      obtain ⟨rfl, rfl, rfl⟩ := hopens.determined hopens'.asks hopens'.target
      obtain rfl := Option.some.inj (hopens.opened.symm.trans hopens'.opened)
      exact ⟨function, fr, hconversion, rfl⟩

/-- The descriptor that was created. -/
theorem Opens.created {code text : List UInt8} {cd : σ}
    (h : Opens iconvOpen opts given code text cd) (hplain : PlainOptions opts) :
    ∃ cvd : ConvDescriptor σ, cvd.cd = cd ∧ Created cvd (given .fromCode) code := by
  have hf := (h.asks.plain hplain .fromCode).ne_zero
  have ht := h.target.ne_zero hplain h.asks
  obtain ⟨suffix, htext⟩ := h.target.exists_suffix
  rcases @convdCreate_cases σ iconvOpen _ _ _ suffix _ rfl hf ht htext with
    ⟨-, -, -, -, -, cvd, hcvd, hopen, -⟩ | ⟨-, -, hnot⟩
  · exact ⟨cvd, Option.some.inj (hopen.symm.trans h.opened), created_of_outcvd hf ht hcvd⟩
  · exact absurd h.opened (hnot cd h.from_fits h.to_fits)

/-- More fuel changes no result. -/
theorem codeconvMain_mono {r : CodeconvResult} {n m : Nat} (hnm : n ≤ m)
    (h : codeconvMain host iconvOpen ic world n junk opts = some r) :
    codeconvMain host iconvOpen ic world m junk opts = some r := by
  have hconvert : ∀ {cvd : ConvDescriptor σ} {ps : Parameters} {res : String × FileResult},
      convertFile host ic world n cvd ps = some res →
        convertFile host ic world m cvd ps = some res := by
    intro cvd ps res hres
    simp only [convertFile] at hres ⊢
    split at hres
    · rename_i hends
      obtain ⟨fr, hfr, rfl⟩ := Option.map_eq_some_iff.mp hres
      rw [if_pos hends, convdConvXmlfile_mono hnm hfr]
      rfl
    · rename_i hends
      obtain ⟨fr, hfr, rfl⟩ := Option.map_eq_some_iff.mp hres
      rw [if_neg hends, convdConvFile_mono hnm hfr]
      rfl
  simp only [codeconvMain] at h ⊢
  split at h
  · exact h
  · split at h
    · exact h
    · rw [codeconvWith] at h ⊢
      split at h
      · rename_i hret
        rwa [if_pos hret]
      · rename_i hret
        rw [if_neg hret]
        obtain ⟨cvd, hcvd, hrest⟩ := Option.bind_eq_some_iff.mp h
        obtain ⟨res, hres, rfl⟩ := Option.map_eq_some_iff.mp hrest
        rw [hcvd, Option.bind_some, hconvert hres]
        rfl

theorem CodeconvEnds.unique {r r' : CodeconvResult}
    (h : CodeconvEnds host iconvOpen ic world junk opts r)
    (h' : CodeconvEnds host iconvOpen ic world junk opts r') : r = r' :=
  unique_of_mono codeconvMain_mono h h'

/-- What is promised of the tool. -/
structure CodeconvReports (host : Endian) (iconvOpen : List UInt8 → List UInt8 → Option σ)
    (ic : Iconv σ) (world : World) (opts : List CliOption) (r : CodeconvResult) : Prop where
  success_iff : r.exit = exitSuccess ↔ ∃ given code text cd function fr,
    Opens iconvOpen opts given code text cd ∧ Conversion host ic world cd (cstrToupper code)
      (given .inputFile) (given .outputFile) function fr ∧ fr.ret = convdNoerror
  /-- `iconv_close` and the rest are called when it succeeds, and else only where nothing was
  opened. -/
  released_iff : r.exit = exitSuccess ↔ ∃ obj, r.obj = some obj ∧ obj.log = givenUp true
  zero : r.exit.status = 0 → r.exit = exitSuccess ∨ .help ∈ opts ∨ .version ∈ opts
  /-- No file is touched without a converter. -/
  untouched : (∀ call ∈ r.opens, iconvOpen call.1 call.2 = none) → r.sys = Sys.init

theorem stops_status {opt : CliOption} {exit : Exit} (h : opt.stops = some exit) :
    exit ≠ exitSuccess ∧ (exit.status = 0 → opt = .help ∨ opt = .version) := by
  cases opt with
  | unknown =>
      obtain rfl := Option.some.inj h
      exact ⟨by simp [exitSuccess], fun h => by simp at h⟩
  | help =>
      obtain rfl := Option.some.inj h
      exact ⟨by simp [exitSuccess], fun _ => .inl rfl⟩
  | version =>
      obtain rfl := Option.some.inj h
      exact ⟨by simp [exitSuccess], fun _ => .inr rfl⟩
  | parameter => cases h
  | addBom => cases h

theorem ne_exitSuccess {exit : Exit} (h : exit.status ≠ 0) : exit ≠ exitSuccess :=
  fun heq => h (heq ▸ rfl)

theorem convertedResult_cases (given : Parameter → List UInt8) (code text : List UInt8)
    (function : String) (fr : FileResult) :
    (fr.ret = convdNoerror ∧ (convertedResult given code text function fr).exit = exitSuccess ∧
        (convertedResult given code text function fr).obj = some ⟨0, true, givenUp true⟩) ∨
      fr.ret ≠ convdNoerror ∧
        (convertedResult given code text function fr).exit.status ≠ 0 ∧
        (convertedResult given code text function fr).obj = some (refcObjectNew true) := by
  by_cases hret : fr.ret ≠ 0
  · simp only [convertedResult, if_pos hret]
    exact .inr ⟨hret, by decide, trivial⟩
  · simp only [convertedResult, if_neg hret]
    exact .inl ⟨not_not.mp hret, rfl, trivial⟩

@[simp] theorem convertedResult_sys (given : Parameter → List UInt8) (code text : List UInt8)
    (function : String) (fr : FileResult) :
    (convertedResult given code text function fr).sys = fr.sys := by
  rw [convertedResult]
  split <;> rfl

@[simp] theorem convertedResult_opens (given : Parameter → List UInt8) (code text : List UInt8)
    (function : String) (fr : FileResult) :
    (convertedResult given code text function fr).opens
      = [(cstrToupper code ++ text, cstrToupper (given .fromCode))] := by
  rw [convertedResult]
  split <;> rfl

theorem convertedResult_success_iff (given : Parameter → List UInt8) (code text : List UInt8)
    (function : String) (fr : FileResult) :
    (convertedResult given code text function fr).exit = exitSuccess ↔ fr.ret = convdNoerror := by
  rcases convertedResult_cases given code text function fr with
    ⟨hret, hexit, -⟩ | ⟨hret, hstatus, -⟩
  · exact iff_of_true hexit hret
  · exact iff_of_false (ne_exitSuccess hstatus) hret

/-- A run that comes to nothing. -/
theorem reports_of_error {r : CodeconvResult} (hexit : r.exit ≠ exitSuccess)
    (hnot : ∀ given code text cd, ¬ Opens iconvOpen opts given code text cd)
    (hobj : ∀ obj, r.obj = some obj → obj.log ≠ givenUp true)
    (hzero : r.exit.status = 0 → .help ∈ opts ∨ .version ∈ opts) (hsys : r.sys = Sys.init) :
    CodeconvReports host iconvOpen ic world opts r where
  success_iff := iff_of_false hexit fun ⟨given, code, text, cd, _, _, h, _⟩ =>
    hnot given code text cd h
  released_iff := iff_of_false hexit fun ⟨obj, h, hlog⟩ => hobj obj h hlog
  zero h := .inr (hzero h)
  untouched _ := hsys

section Converted

variable {given : Parameter → List UInt8} {code text : List UInt8} {cd : σ} {function : String}
  {fr : FileResult}

/-- The options, the file and the converter decide what comes of a conversion. -/
theorem conversion_noerror_iff (hopens : Opens iconvOpen opts given code text cd)
    (hconversion : Conversion host ic world cd (cstrToupper code) (given .inputFile)
      (given .outputFile) function fr) :
    (∃ given' code' text' cd' function' fr',
      Opens iconvOpen opts given' code' text' cd' ∧ Conversion host ic world cd'
        (cstrToupper code') (given' .inputFile) (given' .outputFile) function' fr' ∧
          fr'.ret = convdNoerror) ↔ fr.ret = convdNoerror := by
  constructor
  · rintro ⟨given', code', text', cd', function', fr', hopens', hconversion', hret⟩
    obtain ⟨rfl, rfl, rfl⟩ := hopens.determined hopens'.asks hopens'.target
    obtain rfl := Option.some.inj (hopens.opened.symm.trans hopens'.opened)
    exact hconversion.unique hconversion' ▸ hret
  · exact fun hret => ⟨_, _, _, _, _, _, hopens, hconversion, hret⟩

/-- A run that comes to a conversion. -/
theorem reports_of_conversion (hopens : Opens iconvOpen opts given code text cd)
    (hconversion : Conversion host ic world cd (cstrToupper code) (given .inputFile)
      (given .outputFile) function fr) :
    CodeconvReports host iconvOpen ic world opts
      (convertedResult given code text function fr) where
  success_iff := (convertedResult_success_iff given code text function fr).trans
    (conversion_noerror_iff hopens hconversion).symm
  released_iff := by
    rcases convertedResult_cases given code text function fr with
      ⟨-, hexit, hobj⟩ | ⟨-, hstatus, hobj⟩
    · exact iff_of_true hexit ⟨_, hobj, rfl⟩
    · refine iff_of_false (ne_exitSuccess hstatus) ?_
      rintro ⟨obj, hsome, hlog⟩
      obtain rfl := Option.some.inj (hobj.symm.trans hsome)
      exact absurd hlog (by decide)
  zero := by
    intro hzero
    rcases convertedResult_cases given code text function fr with
      ⟨-, hexit, -⟩ | ⟨-, hstatus, -⟩
    · exact .inl hexit
    · exact absurd hzero hstatus
  untouched := by
    intro hall
    rw [convertedResult_opens] at hall
    exact nomatch hopens.opened.symm.trans (hall _ List.mem_cons_self)

end Converted

theorem CodeconvOutcome.reports {r : CodeconvResult}
    (h : CodeconvOutcome host iconvOpen ic world opts r) :
    CodeconvReports host iconvOpen ic world opts r := by
  have hminus : (-1 : Int) ≠ 0 := by decide
  cases h with
  | stopped exit hstops =>
      obtain ⟨opt, hopt, hstop⟩ := List.exists_of_findSome?_eq_some hstops
      obtain ⟨hne, hzero⟩ := stops_status hstop
      refine reports_of_error hne ?_ (fun obj hobj => nomatch hobj) ?_ rfl
      · exact fun given code text cd hopens => nomatch hopens.asks.goes_on.symm.trans hstops
      · intro h
        rcases hzero h with rfl | rfl
        · exact .inl hopt
        · exact .inr hopt
  | missing p _ hmissing =>
      refine reports_of_error (ne_exitSuccess hminus) ?_ (fun obj hobj => nomatch hobj)
        (fun h => absurd h hminus) rfl
      exact fun given code text cd hopens =>
        nomatch (firstMissing_eq_none hopens.asks.last).symm.trans hmissing
  | notCreated given code text suffix created hasks htarget _ _ _ hnot hgivenup =>
      refine reports_of_error (ne_exitSuccess hminus) ?_ ?_ (fun h => absurd h hminus) rfl
      · intro given' code' text' cd hopens
        obtain ⟨rfl, rfl, rfl⟩ := hopens.determined hasks htarget
        exact hnot cd hopens
      · intro obj hobj hlog
        rw [hgivenup obj hobj] at hlog
        exact absurd hlog (by decide)
  | converted given code text cd function fr hopens hconversion =>
      exact reports_of_conversion hopens hconversion

end Run

/-- `codeconv --to-code=big5 --from-code=UTF-8 --to-code=gb2312//TRANSLIT --input-file=a
--output-file=b` -/
def letterOptions : List CliOption :=
  [.parameter .toCode (ascii "big5"), .parameter .fromCode (ascii "UTF-8"),
    .parameter .toCode (ascii "gb2312//TRANSLIT"), .parameter .inputFile (ascii "a"),
    .parameter .outputFile (ascii "b")]

/-- What it gives. -/
def letterGiven : Parameter → List UInt8
  | .fromCode => ascii "UTF-8"
  | .toCode => ascii "gb2312//TRANSLIT"
  | .inputFile => ascii "a"
  | .outputFile => ascii "b"

/-- The word aé. -/
def letterWorld : World := fun _ _ => .bytewise [0x61, 0xC3, 0xA9] (by decide) fun _ => false

theorem plainOptions_of_filterMap {opts : List CliOption}
    (h : ∀ p, ∀ s ∈ opts.filterMap (CliOption.given p), s.length < 2 ^ 27 ∧ ∀ c ∈ s, c ≠ 0) :
    PlainOptions opts := by
  intro p opt hopt s hs
  obtain ⟨hlen, hne⟩ := h p s (List.mem_filterMap.mpr ⟨opt, hopt, hs⟩)
  exact ⟨hlen, hne⟩

theorem plainOptions_letter : PlainOptions letterOptions := by
  apply plainOptions_of_filterMap
  rintro (_ | _ | _ | _) <;> decide +kernel

theorem opens_letter : Opens (fun _ _ => some ()) letterOptions letterGiven (ascii "gb2312")
    (ascii "//TRANSLIT") () where
  asks := by
    refine ⟨rfl, ?_⟩
    rintro (_ | _ | _ | _) <;> rfl
  target := Target.translit (ascii "gb2312")
  from_fits := ⟨by decide, by decide⟩
  to_fits := ⟨by decide, by decide⟩
  opened := rfl

section Run

variable {host : Endian} {iconvOpen : List UInt8 → List UInt8 → Option σ} {ic : Iconv σ}
  {world : World} {junk : Nat → Mem UInt8} {opts : List CliOption}
  {given : Parameter → List UInt8}

/-- A text file in an encoding whose characters no run divides, with runs shorter than a line.
What the tool leaves in the output file are its characters in the other encoding, from the first
on, whatever fails but the operations whose result is dropped; with `[SUCCESS]` it is all of them,
and when nothing fails, `[SUCCESS]` comes if and only if the other encoding has them all. -/
theorem codeconvMain_transcodes {enc enc' : Encoding} {A B : Code α UInt8} {bom : UcsBom}
    {conv : List UInt8 → Option (List UInt8)} {code text : List UInt8} {cd : σ} {e : Env}
    (hplain : PlainOptions opts) (hopens : Opens iconvOpen opts given code text cd)
    (hxml : ¬ ascii ".xml" <:+ given .inputFile)
    (he : world (given .inputFile) (given .outputFile) = e) (hA : enc.Writes A)
    (hunmixed : enc.isUnmixed = true) (hB : enc'.Writes B) (hic : Implements ic conv)
    (hconv : Transcodes A B conv) (hbom : StartsWithBom e.file bom)
    (htext : bom = .noneBom ∨ bom = .utf8Bom)
    (hruns : ∀ run ∈ List.runs topBit (e.file.drop (bomLength bom)), run.length < 1024)
    (hletters : ∃ letters, A.Writes letters (e.file.drop (bomLength bom))) :
    ∃ r, CodeconvEnds host iconvOpen ic world junk opts r ∧
      (DroppedOk r.sys.log → ∃ done rest out,
        A.Writes (done ++ rest) (e.file.drop (bomLength bom)) ∧ B.Writes done out ∧
        r.sys.out <+: out ∧ (r.exit = exitSuccess → rest = [] ∧ r.sys.out = out)) ∧
      (e.Faultless → (r.exit = exitSuccess ↔ ∃ letters out,
        A.Writes letters (e.file.drop (bomLength bom)) ∧ B.Writes letters out)) := by
  obtain ⟨r, hends, houtcome⟩ :=
    @codeconvMain_outcome σ host iconvOpen ic world junk opts hplain
  obtain ⟨function, fr, hconversion, rfl⟩ := houtcome.of_opens hopens
  rcases hconversion with ⟨hsuffix, -⟩ | ⟨-, hfr⟩
  · exact absurd hsuffix hxml
  rw [he] at hfr
  have hexit := convertedResult_success_iff given code text "convd_conv_file" fr
  refine ⟨_, hends, ?_, ?_⟩
  · intro hdropped
    rw [convertedResult_sys] at hdropped ⊢
    obtain ⟨letters, hletters⟩ := hletters
    obtain ⟨before, after, outs, hwritten⟩ :=
      hfr.writtenRuns hdropped hbom htext (bomLength_le_of_starts hbom htext) (by decide) hruns hic
        fun run hrun => hA.room hB hconv (hruns run hrun)
    obtain ⟨done, pieces, hall, hdone, -, hnoerror⟩ :=
      hwritten.letters (hA.uniform hunmixed) hconv hletters
    refine ⟨done, pieces.flatten, outs.flatten, hall, hdone, hwritten.out_prefix, fun h => ?_⟩
    obtain ⟨rfl, hout⟩ := hnoerror (hexit.mp h)
    exact ⟨rfl, hout⟩
  · intro hfiles
    rw [hexit]
    obtain ⟨fr', hfr', hsome, hnone⟩ := @convdConvFile_converts σ host e ic cd 0 [] 1024 bom conv
      hfiles hbom htext (bomLength_le_of_starts hbom htext) (by decide) hruns hic
      (hconv.runWise (hA.uniform hunmixed)) fun run hrun => hA.room hB hconv (hruns run hrun)
    obtain rfl := hfr.unique hfr'
    rw [Nat.add_zero] at hsome hnone
    rcases hout : conv (e.file.drop (bomLength bom)) with _ | out
    · refine iff_of_false (fun h => ?_) fun ⟨letters, out, hwrites⟩ => ?_
      · exact convdErr_ne convdErrIconv (by decide) ((hnone hout).symm.trans h)
      · exact nomatch hout.symm.trans ((hconv _ out).mpr ⟨letters, hwrites⟩)
    · obtain ⟨letters, hwrites⟩ := (hconv _ out).mp hout
      exact iff_of_true (hsome out hout).1 ⟨letters, out, hwrites⟩

theorem codeconvMain_transcodes_letter :
    ∃ r, CodeconvEnds .little (fun _ _ => some ()) (.ofFun (eacuteConv 0xC3 0xA9 0xA8 0xA6))
      letterWorld (fun _ _ => 7) letterOptions r ∧ r.exit = exitSuccess := by
  have hread : (eacuteCode 0xC3 0xA9).Writes [false, true] [0x61, 0xC3, 0xA9] :=
    .cons (w := [0x61]) rfl (.cons (w := [0xC3, 0xA9]) rfl .nil)
  have hwritten : (eacuteCode 0xA8 0xA6).Writes [false, true] [0x61, 0xA8, 0xA6] :=
    .cons (w := [0x61]) rfl (.cons (w := [0xA8, 0xA6]) rfl .nil)
  obtain ⟨r, hends, -, hsuccess⟩ := @codeconvMain_transcodes Bool Unit .little _ _ letterWorld
    (fun _ _ => 7) _ _ .utf8 .gb2312 _ _ .noneBom _ _ _ _ _ plainOptions_letter opens_letter
    (by decide) rfl utf8_writes_eacute rfl gb2312_writes_eacute (Iconv.implements_ofFun _)
    (eacuteConv_transcodes (by decide)) (by decide) (.inl rfl) (by decide) ⟨_, hread⟩
  exact ⟨r, hends, (hsuccess fun _ => rfl).mpr ⟨_, _, hread, hwritten⟩⟩

end Run

section Xml

variable {host : Endian} {iconvOpen : List UInt8 → List UInt8 → Option σ} {ic : Iconv σ}
  {world : World} {junk : Nat → Mem UInt8} {opts : List CliOption}
  {given : Parameter → List UInt8}

/-- A document without a mark, when nothing fails.  The tool says `[SUCCESS]` if and only if the
other encoding has all characters of the body, and then a document is in the output file that
names the code asked for, in upper case, and has the version of the input and its body. -/
theorem codeconvMain_transcodes_xml {enc enc' : Encoding} {A B : Code α UInt8}
    {conv : List UInt8 → Option (List UInt8)} {code text head : List UInt8} {cd : σ} {e : Env}
    (hplain : PlainOptions opts) (hopens : Opens iconvOpen opts given code text cd)
    (hxml : ascii ".xml" <:+ given .inputFile)
    (he : world (given .inputFile) (given .outputFile) = e) (hA : enc.Writes A)
    (hunmixed : enc.isUnmixed = true) (hB : enc'.Writes B) (hic : Implements ic conv)
    (hconv : Transcodes A B conv) (hcode : CodeText code)
    (hwrites : writesHead (cstrToupper code) = true) (hfiles : e.Faultless)
    (hbom : StartsWithBom e.file .noneBom) (hgt : gt ∈ e.file.take xmlFileHeadbufSize)
    (hdecl : xmlDecl host (.ofList e.file) = some head)
    (hversion : (declVersion head).length < versionSize)
    (hruns : ∀ run ∈ List.runs topBit (docBody host (.ofList e.file)), run.length < 1024) :
    ∃ r, CodeconvEnds host iconvOpen ic world junk opts r ∧
      (r.exit = exitSuccess ↔ ∃ letters out,
        A.Writes letters (docBody host (.ofList e.file)) ∧ B.Writes letters out) ∧
      ∀ letters out, A.Writes letters (docBody host (.ofList e.file)) → B.Writes letters out →
        r.sys.out = headText (declVersion head) (cstrToupper code) ++ out := by
  obtain ⟨r, hends, houtcome⟩ :=
    @codeconvMain_outcome σ host iconvOpen ic world junk opts hplain
  obtain ⟨function, fr, hconversion, rfl⟩ := houtcome.of_opens hopens
  rcases hconversion with ⟨-, hfr⟩ | ⟨hsuffix, -⟩
  · obtain ⟨cvd, hcd, hcvd⟩ := hopens.created hplain
    obtain ⟨fr', hfr', hsome, hnone⟩ := @convXmlfile_transcodes α σ host e ic cvd enc enc' A B
      conv _ code head 1024 hA hunmixed hB hic hconv hcvd hcode (hcvd.tocode_eq ▸ hwrites) hfiles
      hbom hgt hdecl hversion (by decide) hruns
    rw [he] at hfr
    rw [hcd, hcvd.tocode_eq] at hfr'
    obtain rfl := hfr.unique hfr'
    refine ⟨_, hends, ?_, ?_⟩
    · rw [convertedResult_success_iff]
      rcases hout : conv (docBody host (.ofList e.file)) with _ | out
      · refine iff_of_false (fun h => ?_) fun ⟨letters, out, hwritten⟩ => ?_
        · exact convdErr_ne convdErrIconv (by decide) ((hnone hout).symm.trans h)
        · exact nomatch hout.symm.trans ((hconv _ out).mpr ⟨letters, hwritten⟩)
      · obtain ⟨letters, hwritten⟩ := (hconv _ out).mp hout
        exact iff_of_true (hsome out hout).1 ⟨letters, out, hwritten⟩
    · intro letters out hread hwritten
      rw [convertedResult_sys]
      exact (hsome out ((hconv _ out).mpr ⟨letters, hread, hwritten⟩)).2
  · exact absurd hxml hsuffix

end Xml

/-- `codeconv --from-code=utf-8 --to-code=gb2312 --input-file=a.xml --output-file=b.xml` -/
def xmlOptions : List CliOption :=
  [.parameter .fromCode (ascii "utf-8"), .parameter .toCode (ascii "gb2312"),
    .parameter .inputFile (ascii "a.xml"), .parameter .outputFile (ascii "b.xml")]

/-- What it gives. -/
def xmlGiven : Parameter → List UInt8
  | .fromCode => ascii "utf-8"
  | .toCode => ascii "gb2312"
  | .inputFile => ascii "a.xml"
  | .outputFile => ascii "b.xml"

theorem plainOptions_xml : PlainOptions xmlOptions := by
  apply plainOptions_of_filterMap
  rintro (_ | _ | _ | _) <;> decide +kernel

theorem opens_xml : Opens (fun _ _ => some ()) xmlOptions xmlGiven (ascii "gb2312")
    (ascii "//IGNORE") () where
  asks := by
    refine ⟨rfl, ?_⟩
    rintro (_ | _ | _ | _) <;> rfl
  target := Target.plain (ascii "gb2312") (by decide) (by decide)
  from_fits := ⟨by decide, by decide⟩
  to_fits := ⟨by decide, by decide⟩
  opened := rfl

/-- The word aé behind a head. -/
theorem codeconvMain_transcodes_xml_eacute :
    ∃ r, CodeconvEnds .little (fun _ _ => some ()) (.ofFun (eacuteConv 0xC3 0xA9 0xA8 0xA6))
        (fun _ _ => .bytewise eacuteUtf8 eacuteUtf8_lt fun _ => false) (fun _ _ => 7) xmlOptions r ∧
      r.exit = exitSuccess ∧ r.sys.out = eacuteGb2312 := by
  have hread : (eacuteCode 0xC3 0xA9).Writes [false, true] [0x61, 0xC3, 0xA9] :=
    .cons (w := [0x61]) rfl (.cons (w := [0xC3, 0xA9]) rfl .nil)
  have hwritten : (eacuteCode 0xA8 0xA6).Writes [false, true] [0x61, 0xA8, 0xA6] :=
    .cons (w := [0x61]) rfl (.cons (w := [0xA8, 0xA6]) rfl .nil)
  have hbody : docBody .little (.ofList (Env.bytewise eacuteUtf8 eacuteUtf8_lt fun _ => false).file)
      = [0x61, 0xC3, 0xA9] := docBody_eacuteUtf8
  obtain ⟨r, hends, hsuccess, hout⟩ := @codeconvMain_transcodes_xml Bool Unit .little _ _
    (fun _ _ => .bytewise eacuteUtf8 eacuteUtf8_lt fun _ => false) (fun _ _ => 7) _ xmlGiven .utf8
    .gb2312 _ _ _ _ _ _ _ _ plainOptions_xml opens_xml (by decide) rfl utf8_writes_eacute rfl
    gb2312_writes_eacute (Iconv.implements_ofFun _) (eacuteConv_transcodes (by decide))
    codeText_gb2312 (by decide) (fun _ => rfl) (by decide) (by decide) xmlDecl_eacuteUtf8
    (by rw [declVersion_eacuteUtf8]; decide) (by rw [hbody]; decide)
  rw [hbody] at hsuccess hout
  rw [declVersion_eacuteUtf8] at hout
  exact ⟨r, hends, hsuccess.mpr ⟨_, _, hread, hwritten⟩, hout _ _ hread hwritten⟩

end Convd
