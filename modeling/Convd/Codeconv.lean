/-
# `Convd.Codeconv` — the tool over the library

`codeconv` reads its options, creates a descriptor, converts one file with it and says how that
went.  An option given twice counts the last time; `//IGNORE` or `//TRANSLIT` at the end of
`--to-code` is cut off and handed over as the suffix, and without either it is `//IGNORE`:

    option not defined            exit(1)
    --help, --version             exit(0)
    a parameter is missing        exit(-1)     no call of `iconv_open`, no file touched
    `convd_create` fails          exit(-1)     no file touched
    the conversion fails          exit(-1)     the descriptor is not released
    otherwise                     0            released, `[SUCCESS]`

What `getopt_long_only` makes of `argv` is the input here, and the two paths are not of one file.
-/
import Convd.Create
import Convd.CstrbufNul
import Convd.XmlFile
import Mathlib.Logic.Function.Basic

namespace Convd

open CString

variable {σ : Type}

/-! ## The code -/

/-- The options with an argument. -/
inductive Parameter where
  | fromCode
  | toCode
  | inputFile
  | outputFile
  deriving DecidableEq, Repr

/-- `longopts[].name` -/
def Parameter.name : Parameter → String
  | .fromCode => "from-code"
  | .toCode => "to-code"
  | .inputFile => "input-file"
  | .outputFile => "output-file"

/-- What `getopt_long_only` returns, with `flag` and `optarg`. -/
inductive CliOption where
  /-- `'?'`: not defined, ambiguous, or without its argument. -/
  | unknown
  | help
  | version
  | parameter (flag : Parameter) (optarg : List UInt8)
  | addBom
  deriving DecidableEq, Repr

/-- What is printed. -/
inductive Output where
  | usage
  | version
  | text (s : String)
  deriving DecidableEq, Repr

/-- How the process ends. -/
structure Exit where
  status : Int
  output : Output
  deriving DecidableEq, Repr

/-- The variables of `app_incl.h`. -/
structure Arguments where
  str : Parameter → Option Cstrbuf
  addBom : Bool

def Arguments.init : Arguments := ⟨fun _ => none, false⟩

/-- `cstrbufNew(0, optarg, -1)` -/
def newOptarg (junk : Mem UInt8) (optarg : List UInt8) : Cstrbuf :=
  (cstrbufNew junk 0 (some (optarg ++ [0])) cstrbufErrorSizeLen).1

/-- The `switch` over one option. -/
def parseOption (junk : Mem UInt8) (args : Arguments) : CliOption → Except Exit Arguments
  | .unknown => .error ⟨1, .text "\x1b[1;31m[error]\x1b[0m option not defined.\n"⟩
  | .help => .error ⟨0, .usage⟩
  | .version => .error ⟨0, .version⟩
  | .parameter flag optarg =>
      .ok { args with str := Function.update args.str flag (some (newOptarg junk optarg)) }
  | .addBom => .ok { args with addBom := true }

/-- `parse_arguments` -/
def parseArguments (junk : Nat → Mem UInt8) : List CliOption → Arguments → Except Exit Arguments
  | [], args => .ok args
  | opt :: opts, args =>
      match parseOption (junk 0) args opt with
      | .error exit => .error exit
      | .ok args => parseArguments (fun k => junk (k + 1)) opts args

/-- The bytes of a buffer, and what they are as a C string. -/
def Cstrbuf.bytes (b : Cstrbuf) : List UInt8 := b.str.load 0 b.alloc

def Cstrbuf.text (b : Cstrbuf) : List UInt8 := cstr b.bytes

/-- `cstr_endwith`, of strings at different places. -/
def cstrEndwith (str : List UInt8) (count : Int) (ending : List UInt8) (endlen : Int) : Bool :=
  decide (endlen ≤ count) && strncmp (str.drop (count - endlen).toNat) ending endlen.toNat == 0

/-- `cstr_endwith(s->str, s->len, end, endlen)` with a literal. -/
def Cstrbuf.endsWith (b : Cstrbuf) (ending : String) : Bool :=
  cstrEndwith b.bytes (toInt b.len) (ascii ending) ending.length

/-- The `to_code` that `convd_create` is given, and the suffix. -/
def cutSuffix (toCode : Cstrbuf) : Cstrbuf × Int :=
  if toCode.endsWith "//IGNORE" then
    ((cstrbufTrunc toCode (subUb4 toCode.len 8)).1, cvdSuffixIgnore)
  else if toCode.endsWith "//TRANSLIT" then
    ((cstrbufTrunc toCode (subUb4 toCode.len 10)).1, cvdSuffixTranslit)
  else (toCode, cvdSuffixIgnore)

/-- `main` prints an error and exits. -/
def exitError (text : String) : Exit := ⟨-1, .text ("[ERROR] " ++ text ++ "\n")⟩

def notSpecified (p : Parameter) : Exit :=
  exitError ("Parameter Not Specified: --" ++ p.name ++ "=?")

def createError (ret : Int) : Exit := exitError ("convd_create error(" ++ toString ret ++ ")")

def exitSuccess : Exit := ⟨0, .text "[SUCCESS] file converted successfully.\n"⟩

/-- The buffers `main` goes on with. -/
structure Parameters where
  fromCode : Cstrbuf
  toCode : Cstrbuf
  inputFile : Cstrbuf
  outputFile : Cstrbuf

/-- The four tests at the beginning of `main`. -/
def Arguments.specified (args : Arguments) : Except Exit Parameters :=
  match args.str .fromCode with
  | none => .error (notSpecified .fromCode)
  | some fromCode =>
      match args.str .toCode with
      | none => .error (notSpecified .toCode)
      | some toCode =>
          match args.str .inputFile with
          | none => .error (notSpecified .inputFile)
          | some inputFile =>
              match args.str .outputFile with
              | none => .error (notSpecified .outputFile)
              | some outputFile => .ok ⟨fromCode, toCode, inputFile, outputFile⟩

/-- What a run of the tool comes to. -/
structure CodeconvResult where
  exit : Exit
  /-- The calls of `iconv_open`. -/
  opens : List (List UInt8 × List UInt8)
  /-- The descriptor, as it is left. -/
  obj : Option RefcObject
  sys : Sys

/-- What there is at two paths, when the first is read and the second written. -/
abbrev World := List UInt8 → List UInt8 → Env

section Code

variable (host : Endian) (iconvOpen : List UInt8 → List UInt8 → Option σ) (ic : Iconv σ)
  (world : World) (fuel : Nat)

/-- The conversion: what it returns, and the name of the function that did it.  `add_bom` goes to
`convd_conv_xmlfile`, which does not look at it. -/
def convertFile (cvd : ConvDescriptor σ) (p : Parameters) : Option (String × FileResult) :=
  let e := world p.inputFile.text p.outputFile.text
  if p.inputFile.endsWith ".xml" then
    (convdConvXmlfile host e ic fuel cvd.cd (convdTocode cvd) 1024 Sys.init).map
      ("convd_conv_xmlfile", ·)
  else (convdConvFile host e ic fuel cvd.cd 0 [] 1024 Sys.init).map ("convd_conv_file", ·)

/-- `main`, with its parameters. -/
def codeconvWith (p : Parameters) : Option CodeconvResult :=
  let cut := cutSuffix p.toCode
  let created := convdCreate iconvOpen (some p.fromCode.text) (some cut.1.text) cut.2
  if created.ret ≠ convdNoerror then
    some ⟨createError created.ret, created.opens, created.obj, Sys.init⟩
  else
    -- without an error `cvd` has been stored
    created.outcvd.bind fun cvd =>
      (convertFile host ic world fuel cvd p).map fun (function, r) =>
        if r.ret ≠ 0 then
          ⟨exitError (function ++ " error(" ++ toString r.ret ++ ")."), created.opens, created.obj,
            r.sys⟩
        else
          ⟨exitSuccess, created.opens, created.obj.map fun obj => (convdRelease (some 0) obj).2,
            r.sys⟩

/-- `main` of the tool; none when the conversion has not ended on this fuel. -/
def codeconvMain (junk : Nat → Mem UInt8) (opts : List CliOption) : Option CodeconvResult :=
  match parseArguments junk opts .init with
  | .error exit => some ⟨exit, [], none, Sys.init⟩
  | .ok args =>
      match args.specified with
      | .error exit => some ⟨exit, [], none, Sys.init⟩
      | .ok p => codeconvWith host iconvOpen ic world fuel p

end Code

/-- The tool ends, with this result. -/
def CodeconvEnds (host : Endian) (iconvOpen : List UInt8 → List UInt8 → Option σ) (ic : Iconv σ)
    (world : World) (junk : Nat → Mem UInt8) (opts : List CliOption) (r : CodeconvResult) : Prop :=
  ∃ fuel, codeconvMain host iconvOpen ic world fuel junk opts = some r

/-! ## The buffers -/

/-- An argument of the command line. -/
structure PlainArg (s : List UInt8) : Prop where
  length_lt : s.length < 2 ^ 27
  ne_zero : ∀ c ∈ s, c ≠ 0

/-- The buffer is the string. -/
structure Cstrbuf.Holds (b : Cstrbuf) (s : List UInt8) : Prop where
  sized : b.Sized
  contents_eq : b.contents = s
  ended : b.Ended

section Holds

variable {b : Cstrbuf} {s : List UInt8}

theorem Cstrbuf.Holds.len_eq (h : b.Holds s) : b.len = s.length := by
  rw [← h.contents_eq, Cstrbuf.length_contents]

theorem Cstrbuf.Holds.text_eq (h : b.Holds s) (hs : PlainArg s) : b.text = s := by
  have hfree : ∀ c ∈ b.contents, c ≠ 0 := h.contents_eq.symm ▸ hs.ne_zero
  exact ((Cstrbuf.terminated_iff h.sized hfree).mpr h.ended).reads.trans h.contents_eq

/-- The string, and what is behind it in the block. -/
theorem Cstrbuf.Holds.bytes_eq (h : b.Holds s) : ∃ rest, b.bytes = s ++ rest := by
  have hlt := Nat.lt_of_lt_of_le h.sized.len_lt h.sized.maxsz_le
  obtain ⟨k, hk⟩ := Nat.exists_eq_add_of_le (Nat.le_of_lt hlt)
  refine ⟨b.str.load b.len k, ?_⟩
  rw [Cstrbuf.bytes, hk, Mem.load_add, Nat.zero_add]
  exact congrArg (· ++ b.str.load b.len k) h.contents_eq

theorem Makes.holds {r : Cstrbuf × List BufWrite} (h : Makes r s) (hended : r.1.Ended) :
    r.1.Holds s := ⟨h.sized, h.contents_eq, hended⟩

/-- `cstrbufNew(maxsz, s, -1)` and `cstrbufNew(maxsz, s, strlen(s))` -/
theorem cstrbufNew_holds (junk : Mem UInt8) {maxsz len : Nat} (hmaxsz : FitsUb4 maxsz)
    (hs : PlainArg s) (hlen : len = cstrbufErrorSizeLen ∨ len = s.length) :
    (cstrbufNew junk maxsz (some (s ++ [0])) len).1.Holds s := by
  have hshort := hs.length_lt
  have hmeant : meantLength (some (s ++ [0])) len = s.length := by
    have hall : cstrLengthAll (some (s ++ [0])) = s.length :=
      congrArg List.length (cstr_append_zero hs.ne_zero [])
    rw [meantLength, hall]
    split
    · rfl
    · exact hlen.resolve_left ‹_›
  have hgiven : Given (some (s ++ [0])) len := by
    refine ⟨fun t ht => ?_, hmeant.symm ▸ hshort⟩
    obtain rfl := Option.some.inj ht
    split
    · exact List.mem_append_right s List.mem_cons_self
    · rw [hlen.resolve_left ‹_›, List.length_append]
      exact Nat.le_add_right _ _
  have hmakes := cstrbufNew_makes junk hmaxsz hgiven
  rw [meantText, hmeant] at hmakes
  have htake : (some (s ++ [0])).getD [] = s ++ [0] := rfl
  rw [htake, List.take_left] at hmakes
  exact hmakes.holds (cstrbufNew_ended junk hmaxsz hgiven)

theorem newOptarg_holds (junk : Mem UInt8) (hs : PlainArg s) : (newOptarg junk s).Holds s :=
  cstrbufNew_holds junk (.inl (by decide)) hs (.inl rfl)

theorem cstrbufTrunc_holds (h : b.Holds s) (len : Nat) :
    (cstrbufTrunc b len).1.Holds (s.take len) :=
  have hmakes := cstrbufTrunc_makes h.sized len
  ⟨hmakes.sized, hmakes.contents_eq.trans (congrArg (List.take len) h.contents_eq),
    cstrbufTrunc_ended h.ended len⟩

theorem strncmp_eq_zero_iff {s t : List UInt8} {n : Nat} (hs : ∀ c ∈ s.take n, c ≠ 0)
    (ht : ∀ c ∈ t.take n, c ≠ 0) : strncmp s t n = 0 ↔ s.take n = t.take n := by
  rw [strncmp, cstr_eq_self hs, cstr_eq_self ht]
  exact (strcmp_signOf hs ht).zero_iff

/-- `cstr_endwith` of two texts, whatever is behind them. -/
theorem cstrEndwith_iff {e rest rest' : List UInt8} (hs : ∀ c ∈ s, c ≠ 0) (he : ∀ c ∈ e, c ≠ 0) :
    cstrEndwith (s ++ rest) s.length (e ++ rest') e.length = true ↔ e <:+ s := by
  rw [cstrEndwith, Bool.and_eq_true, decide_eq_true_eq, beq_iff_eq, List.suffix_iff_eq_drop]
  by_cases hle : e.length ≤ s.length
  · have hat : ((s.length : Int) - e.length).toNat = s.length - e.length := by omega
    have htail : (s.drop (s.length - e.length)).length = e.length := by
      rw [List.length_drop]
      omega
    have htake : ((s ++ rest).drop (s.length - e.length)).take e.length
        = s.drop (s.length - e.length) := by
      rw [List.drop_append_of_le_length (by omega), List.take_left' htail]
    have htake' : (e ++ rest').take e.length = e := List.take_left
    rw [hat, Int.toNat_natCast, strncmp_eq_zero_iff ?_ ?_, htake, htake']
    · exact ⟨fun hand => hand.2.symm, fun heq => ⟨by omega, heq.symm⟩⟩
    · rw [htake]
      exact fun c hc => hs c (List.mem_of_mem_drop hc)
    · rwa [htake']
  · refine iff_of_false (fun hand => hle (by omega)) fun heq => hle ?_
    have hdrop := congrArg List.length heq
    rw [List.length_drop] at hdrop
    omega

theorem Cstrbuf.Holds.endsWith_iff (h : b.Holds s) (hs : PlainArg s) {ending : String}
    (hfree : ∀ c ∈ ascii ending, c ≠ 0) : b.endsWith ending = true ↔ ascii ending <:+ s := by
  have hlen : (ascii ending).length = ending.length := List.length_map _
  have hshort := hs.length_lt
  obtain ⟨rest, hbytes⟩ := h.bytes_eq
  have hiff := @cstrEndwith_iff s (ascii ending) rest [] hs.ne_zero hfree
  rw [List.append_nil, hlen] at hiff
  rw [Cstrbuf.endsWith, h.len_eq, hbytes, toInt_of_lt (by omega)]
  exact hiff

end Holds

/-! ## What the options ask for -/

/-- An option at which the tool stops. -/
def CliOption.stops : CliOption → Option Exit
  | .unknown => some ⟨1, .text "\x1b[1;31m[error]\x1b[0m option not defined.\n"⟩
  | .help => some ⟨0, .usage⟩
  | .version => some ⟨0, .version⟩
  | .parameter .. | .addBom => none

/-- The argument an option gives a parameter. -/
def CliOption.given (p : Parameter) : CliOption → Option (List UInt8)
  | .parameter flag optarg => if flag = p then some optarg else none
  | .unknown | .help | .version | .addBom => none

/-- The one given last. -/
def lastGiven (p : Parameter) (opts : List CliOption) : Option (List UInt8) :=
  (opts.filterMap (CliOption.given p)).getLast?

/-- Every argument is one of the command line. -/
def PlainOptions (opts : List CliOption) : Prop :=
  ∀ p, ∀ opt ∈ opts, ∀ s ∈ opt.given p, PlainArg s

/-- The options stop nowhere, and give these parameters. -/
structure Asks (opts : List CliOption) (given : Parameter → List UInt8) : Prop where
  goes_on : opts.findSome? CliOption.stops = none
  last : ∀ p, lastGiven p opts = some (given p)

/-- How `--to-code` names a code, and the text that is appended to it. -/
inductive Target : List UInt8 → List UInt8 → List UInt8 → Prop where
  | ignore (code : List UInt8) : Target (code ++ ascii "//IGNORE") code (ascii "//IGNORE")
  | translit (code : List UInt8) : Target (code ++ ascii "//TRANSLIT") code (ascii "//TRANSLIT")
  | plain (code : List UInt8) : ¬ ascii "//IGNORE" <:+ code → ¬ ascii "//TRANSLIT" <:+ code →
      Target code code (ascii "//IGNORE")

theorem Target.unique {t code code' text text' : List UInt8} (h : Target t code text)
    (h' : Target t code' text') : code' = code ∧ text' = text := by
  have hne : ∀ {c c' : List UInt8}, c ++ ascii "//IGNORE" ≠ c' ++ ascii "//TRANSLIT" := by
    intro c c' heq
    have hlast := congrArg List.getLast? heq
    rw [List.getLast?_append_of_ne_nil _ (by decide), List.getLast?_append_of_ne_nil _ (by decide)]
      at hlast
    exact absurd hlast (by decide)
  generalize ht : t = t' at h'
  cases h with
  | ignore =>
      cases h' with
      | ignore => exact ⟨(List.append_cancel_right ht).symm, rfl⟩
      | translit => exact absurd ht hne
      | plain _ hno => exact absurd ⟨_, ht⟩ hno
  | translit =>
      cases h' with
      | ignore => exact absurd ht.symm hne
      | translit => exact ⟨(List.append_cancel_right ht).symm, rfl⟩
      | plain _ _ hno => exact absurd ⟨_, ht⟩ hno
  | plain _ hno hno' =>
      cases h' with
      | ignore => exact absurd ⟨_, ht.symm⟩ hno
      | translit => exact absurd ⟨_, ht.symm⟩ hno'
      | plain => exact ⟨ht.symm, rfl⟩

theorem Target.code_prefix {t code text : List UInt8} (h : Target t code text) : code <+: t := by
  cases h with
  | ignore => exact List.prefix_append _ _
  | translit => exact List.prefix_append _ _
  | plain => exact List.prefix_rfl

/-- What the buffers hold is what the options have given so far. -/
def Arguments.Hold (args : Arguments) (seen : List CliOption) : Prop :=
  ∀ p, Option.Rel Cstrbuf.Holds (args.str p) (lastGiven p seen)

theorem lastGiven_append_singleton (p : Parameter) (seen : List CliOption) (opt : CliOption) :
    lastGiven p (seen ++ [opt]) = (opt.given p).or (lastGiven p seen) := by
  rw [lastGiven, List.filterMap_append, List.getLast?_append]
  cases h : opt.given p <;> simp [lastGiven, h]

theorem Arguments.hold_init : Arguments.init.Hold [] := fun _ => .none

/-- One option: it stops, or the buffers hold what it gives as well. -/
theorem parseOption_cases (junk : Mem UInt8) {args : Arguments} {seen : List CliOption}
    {opt : CliOption} (hargs : args.Hold seen) (hplain : ∀ p, ∀ s ∈ opt.given p, PlainArg s) :
    (∃ exit, opt.stops = some exit ∧ parseOption junk args opt = .error exit) ∨
      opt.stops = none ∧ ∃ args', parseOption junk args opt = .ok args' ∧
        args'.Hold (seen ++ [opt]) := by
  cases opt with
  | unknown => exact .inl ⟨_, rfl, rfl⟩
  | help => exact .inl ⟨_, rfl, rfl⟩
  | version => exact .inl ⟨_, rfl, rfl⟩
  | addBom =>
      refine .inr ⟨rfl, _, rfl, fun p => ?_⟩
      rw [lastGiven_append_singleton]
      exact hargs p
  | parameter flag optarg =>
      refine .inr ⟨rfl, _, rfl, fun p => ?_⟩
      rw [lastGiven_append_singleton, CliOption.given]
      by_cases hp : flag = p
      · subst hp
        rw [if_pos rfl]
        show Option.Rel _ (Function.update args.str flag _ flag) _
        rw [Function.update_self]
        exact .some (newOptarg_holds junk (hplain flag optarg (if_pos rfl)))
      · rw [if_neg hp]
        show Option.Rel _ (Function.update args.str flag _ p) _
        rw [Function.update_of_ne (Ne.symm hp)]
        exact hargs p

/-- All options: the first that stops ends the tool; without one the buffers hold what was given
last. -/
theorem parseArguments_cases : ∀ {opts : List CliOption} (junk : Nat → Mem UInt8)
    {args : Arguments} {seen : List CliOption}, args.Hold seen → PlainOptions opts →
    (∃ exit, opts.findSome? CliOption.stops = some exit ∧
        parseArguments junk opts args = .error exit) ∨
      opts.findSome? CliOption.stops = none ∧ ∃ args', parseArguments junk opts args = .ok args' ∧
        args'.Hold (seen ++ opts)
  | [], _, args, seen, hargs, _ => .inr ⟨rfl, args, rfl, (List.append_nil seen).symm ▸ hargs⟩
  | opt :: opts, junk, args, seen, hargs, hplain => by
      rw [parseArguments, List.findSome?_cons]
      rcases parseOption_cases (junk 0) hargs fun p => hplain p opt List.mem_cons_self with
        ⟨exit, hstops, hparse⟩ | ⟨hgoes, args', hparse, hargs'⟩
      · rw [hstops, hparse]
        exact .inl ⟨exit, rfl, rfl⟩
      · rw [hgoes, hparse]
        have hrest := parseArguments_cases (fun k => junk (k + 1)) hargs' fun p opt hopt =>
          hplain p opt (List.mem_cons_of_mem _ hopt)
        rwa [List.append_assoc] at hrest

/-- The order of the four tests. -/
def Parameter.all : List Parameter := [.fromCode, .toCode, .inputFile, .outputFile]

/-- The first parameter that is missing. -/
def firstMissing (opts : List CliOption) : Option Parameter :=
  Parameter.all.find? fun p => (lastGiven p opts).isNone

/-- The buffers hold the parameters. -/
structure Parameters.Hold (ps : Parameters) (given : Parameter → List UInt8) : Prop where
  fromCode : ps.fromCode.Holds (given .fromCode)
  toCode : ps.toCode.Holds (given .toCode)
  inputFile : ps.inputFile.Holds (given .inputFile)
  outputFile : ps.outputFile.Holds (given .outputFile)

theorem Arguments.Hold.cases {args : Arguments} {opts : List CliOption} (h : args.Hold opts)
    (p : Parameter) : (args.str p = none ∧ lastGiven p opts = none) ∨
      ∃ b s, args.str p = some b ∧ lastGiven p opts = some s ∧ b.Holds s := by
  have hp := h p
  generalize args.str p = stored at hp ⊢
  generalize lastGiven p opts = last at hp ⊢
  cases hp with
  | none => exact .inl ⟨rfl, rfl⟩
  | some hb => exact .inr ⟨_, _, rfl, rfl, hb⟩

/-- The four tests: the first parameter that is missing, or all of them. -/
theorem specified_cases {args : Arguments} {opts : List CliOption} (hargs : args.Hold opts) :
    (∃ p, firstMissing opts = some p ∧ args.specified = .error (notSpecified p)) ∨
      ∃ (given : Parameter → List UInt8) (ps : Parameters),
        (∀ p, lastGiven p opts = some (given p)) ∧ args.specified = .ok ps ∧ ps.Hold given := by
  rcases hargs.cases .fromCode with ⟨hbf, hf⟩ | ⟨bf, f, hbf, hf, hholdf⟩
  · exact .inl ⟨.fromCode, by simp [firstMissing, Parameter.all, hf],
      by simp [Arguments.specified, hbf]⟩
  rcases hargs.cases .toCode with ⟨hbt, ht⟩ | ⟨bt, t, hbt, ht, hholdt⟩
  · exact .inl ⟨.toCode, by simp [firstMissing, Parameter.all, hf, ht],
      by simp [Arguments.specified, hbf, hbt]⟩
  rcases hargs.cases .inputFile with ⟨hbi, hi⟩ | ⟨bi, i, hbi, hi, hholdi⟩
  · exact .inl ⟨.inputFile, by simp [firstMissing, Parameter.all, hf, ht, hi],
      by simp [Arguments.specified, hbf, hbt, hbi]⟩
  rcases hargs.cases .outputFile with ⟨hbo, ho⟩ | ⟨bo, o, hbo, ho, hholdo⟩
  · exact .inl ⟨.outputFile, by simp [firstMissing, Parameter.all, hf, ht, hi, ho],
      by simp [Arguments.specified, hbf, hbt, hbi, hbo]⟩
  refine .inr ⟨fun p => (lastGiven p opts).getD [], ⟨bf, bt, bi, bo⟩, ?_, ?_, ?_⟩
  · rintro (_ | _ | _ | _) <;> simp [hf, ht, hi, ho]
  · simp [Arguments.specified, hbf, hbt, hbi, hbo]
  · constructor <;> simpa [hf, ht, hi, ho]

theorem firstMissing_eq_none {opts : List CliOption} {given : Parameter → List UInt8}
    (h : ∀ p, lastGiven p opts = some (given p)) : firstMissing opts = none := by
  rw [firstMissing, List.find?_eq_none]
  intro p _
  rw [h p]
  exact Bool.false_ne_true

theorem mem_of_lastGiven {p : Parameter} {opts : List CliOption} {s : List UInt8}
    (h : lastGiven p opts = some s) : ∃ opt ∈ opts, opt.given p = some s :=
  List.mem_filterMap.mp (List.mem_of_getLast? h)

theorem Asks.plain {opts : List CliOption} {given : Parameter → List UInt8} (h : Asks opts given)
    (hplain : PlainOptions opts) (p : Parameter) : PlainArg (given p) := by
  obtain ⟨opt, hopt, hgiven⟩ := mem_of_lastGiven (h.last p)
  exact hplain p opt hopt _ hgiven

theorem Asks.unique {opts : List CliOption} {given given' : Parameter → List UInt8}
    (h : Asks opts given) (h' : Asks opts given') : given' = given :=
  funext fun p => Option.some.inj ((h'.last p).symm.trans (h.last p))

theorem suffixText_ignore : suffixText cvdSuffixIgnore = some (ascii "//IGNORE") := by
  rw [suffixText, if_neg (by decide), if_pos rfl]

theorem suffixText_translit : suffixText cvdSuffixTranslit = some (ascii "//TRANSLIT") := by
  rw [suffixText, if_neg (by decide), if_neg (by decide), if_pos rfl]

theorem Target.exists_suffix {t code text : List UInt8} (h : Target t code text) :
    ∃ suffix, suffixText suffix = some text := by
  cases h with
  | ignore => exact ⟨_, suffixText_ignore⟩
  | translit => exact ⟨_, suffixText_translit⟩
  | plain => exact ⟨_, suffixText_ignore⟩

/-- The ending is cut off. -/
theorem holds_of_cut {b : Cstrbuf} {code ending : List UInt8} {n : Nat} {suffix : Int}
    {r : Cstrbuf × Int} (h : b.Holds (code ++ ending)) (hplain : PlainArg (code ++ ending))
    (hn : ending.length = n) (hr : r = ((cstrbufTrunc b (subUb4 b.len n)).1, suffix)) :
    r.1.Holds code ∧ PlainArg code ∧ r.2 = suffix := by
  subst hn hr
  have hlen := hplain.length_lt
  rw [List.length_append] at hlen
  have hat : subUb4 b.len ending.length = code.length := by
    rw [h.len_eq, List.length_append, subUb4_of_le (by omega) (by omega), Nat.add_sub_cancel]
  have htrunc := cstrbufTrunc_holds h code.length
  rw [List.take_left] at htrunc
  rw [hat]
  exact ⟨htrunc, ⟨by omega, fun c hc => hplain.ne_zero c (List.mem_append_left _ hc)⟩, rfl⟩

/-- The code and the suffix that `convd_create` is given. -/
theorem cutSuffix_target {b : Cstrbuf} {t : List UInt8} (h : b.Holds t) (ht : PlainArg t) :
    ∃ code text, Target t code text ∧ (cutSuffix b).1.Holds code ∧ PlainArg code ∧
      suffixText (cutSuffix b).2 = some text := by
  have hignore : b.endsWith "//IGNORE" = true ↔ _ := h.endsWith_iff ht (by decide +kernel)
  have htranslit : b.endsWith "//TRANSLIT" = true ↔ _ := h.endsWith_iff ht (by decide +kernel)
  by_cases hends : b.endsWith "//IGNORE" = true
  · obtain ⟨code, rfl⟩ := hignore.mp hends
    have hr : cutSuffix b = ((cstrbufTrunc b (subUb4 b.len 8)).1, cvdSuffixIgnore) := by
      rw [cutSuffix, if_pos hends]
    obtain ⟨hholds, hplain, hsuffix⟩ := holds_of_cut h ht (by decide) hr
    exact ⟨code, _, .ignore code, hholds, hplain, hsuffix ▸ suffixText_ignore⟩
  by_cases hends' : b.endsWith "//TRANSLIT" = true
  · obtain ⟨code, rfl⟩ := htranslit.mp hends'
    have hr : cutSuffix b = ((cstrbufTrunc b (subUb4 b.len 10)).1, cvdSuffixTranslit) := by
      rw [cutSuffix, if_neg hends, if_pos hends']
    obtain ⟨hholds, hplain, hsuffix⟩ := holds_of_cut h ht (by decide) hr
    exact ⟨code, _, .translit code, hholds, hplain, hsuffix ▸ suffixText_translit⟩
  · have hr : cutSuffix b = (b, cvdSuffixIgnore) := by
      rw [cutSuffix, if_neg hends, if_neg hends']
    rw [hr]
    exact ⟨t, _, .plain t (fun hsuf => hends (hignore.mpr hsuf))
      (fun hsuf => hends' (htranslit.mpr hsuf)), h, ht, suffixText_ignore⟩

end Convd
