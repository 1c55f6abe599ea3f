/-
# `Convd.ConfigPath` — finding a configuration file

`find_config_pathfile` of `misc.h` puts paths together in string buffers, and returns

    the path it was given                                          as it is, or a directory
    else, where there is a file, one of
        dir/name     dir/conf/name     dir/../conf/name            `dir` that of the program
    else the path the environment gives                            as it is, or a directory
    else the file of that name in the directory given for last

What it looks for is stated on texts (`configWanted`), and the buffers are shown to hold it
(`findConfigPathfile_finds`).  Both ends of it that look at a last character do so of an empty text
as well: of an empty path it reads the character in front of the first, and of an empty variable
the one at index 2 ^ 32 - 1 of the buffer, `len - 1` being a `ub4`.  Where the link to the program
cannot be read the process exits.  The paths it prints on its way are left out.
-/
import Convd.Codeconv
import Convd.Lib.Block

namespace Convd

open CString Block Loop

/-! ## The code -/

/-- What the process sees of the system: the link to its program, its environment, its files. -/
structure Surroundings where
  exe : Option (List UInt8)
  getenv : List UInt8 → Option (List UInt8)
  pathfileExists : List UInt8 → Bool

/-- How a search ends: the process exits, a read is outside its object, or something is
returned, maybe null. -/
inductive Search (α : Type) where
  | exits
  | faults
  | found (config : Option α)

/-- `'/'` on Linux. -/
def pathSeparatorChar : UInt8 := 47

/-- A turn of `while ((r = readlink("/proc/self/exe", pathbuf, bufsize)) >= (int)bufsize)`. -/
def linkTurn (target : List UInt8) (bufsize : Nat) : Turn Nat (List UInt8) :=
  let r := min target.length bufsize
  if r ≥ bufsize then .again (bufsize + 128) else .leave (target.take r)

/-- `get_proc_pathfile`; the inner `none` is an exit. -/
def getProcPathfile (junk : Mem UInt8) (fuel : Nat) (exe : Option (List UInt8)) :
    Option (Option Cstrbuf) :=
  match exe with
  | none => some none
  | some target =>
      match run (linkTurn target) fuel 128 with
      | none => none
      | some [] => some none
      | some path => some (some (cstrbufNew junk 0 (some (path ++ [0])) path.length).1)

/-- Where `get_proc_abspath` cuts: at the last `\` or the last `/`, whichever is behind. -/
def cutAt (str : List UInt8) : Option Nat :=
  match lastIdx 92 str, lastIdx 47 str with
  | some p, some q => some (if p > q then p else q)
  | some p, none => some p
  | none, some q => some q
  | none, none => none

/-- `get_proc_abspath` -/
def getProcAbspath (pathfile : Cstrbuf) : Cstrbuf :=
  let str := match cutAt pathfile.text with
    | some p => pathfile.str.store p [0]
    | none => pathfile.str
  { pathfile with str := str, len := toUb4 (cstr (str.load 0 pathfile.len)).length }

/-- Beside the program: steps 1 to 3. -/
def findBeside (junk : Nat → Mem UInt8) (pathfileExists : List UInt8 → Bool)
    (dname pname : Cstrbuf) : Option Cstrbuf :=
  let config := (cstrbufConcat junk (some dname) [some pname, none]).1
  if pathfileExists config.text then some config
  else
    let config := (cstrbufCat (junk 2) none (printed (some dname) ++ pathSeparatorChar ::
      (ascii "conf" ++ printed (some pname)))).1
    if pathfileExists config.text then some config
    else
      let config := (cstrbufTrunc config dname.len).1
      match lastIdx pathSeparatorChar config.text with
      | none => none
      | some p =>
          let config := (cstrbufTrunc config p).1
          let config := (cstrbufCat (junk 3) (some config) (pathSeparatorChar ::
            (ascii "conf" ++ printed (some pname)))).1
          if pathfileExists config.text then some config else none

/-- `cfgpath`, or the file in it. -/
def configGiven (junk : Mem UInt8) (pname tname : Cstrbuf) (cfgpath cfgname : List UInt8) :
    Search Cstrbuf :=
  let pathlen := toInt cfgpath.length
  if cstrEndwith cfgpath pathlen pname.bytes (toInt pname.len) ||
      cstrEndwith cfgpath pathlen tname.bytes (toInt tname.len) then
    .found (some (cstrbufNew junk 0 (some (cfgpath ++ [0])) (ub4OfInt pathlen)).1)
  else
    match cfgpath.getLast? with
    | none => .faults
    | some endchr =>
        if endchr = pathSeparatorChar ∨ endchr = 47 then
          .found (some (cstrbufCat junk none (cfgpath ++ cfgname.take (pname.len - 1))).1)
        else
          .found (some (cstrbufCat junk none
            (cfgpath ++ pathSeparatorChar :: cfgname.take (pname.len - 1))).1)

/-- The path of the environment, or the file in it. -/
def configOfEnv (junk : Nat → Mem UInt8) (pname tname : Cstrbuf) (p cfgname : List UInt8) :
    Search Cstrbuf :=
  let config := (cstrbufNew (junk 0) (toUb4 (ub4OfInt (toInt p.length) + pname.len + 1))
    (some (p ++ [0])) cstrbufErrorSizeLen).1
  if cstrEndwith config.bytes (toInt config.len) pname.bytes (toInt pname.len) ||
      cstrEndwith config.bytes (toInt config.len) tname.bytes (toInt tname.len) then
    .found (some config)
  else
    match config.bytes[subUb4 config.len 1]? with
    | none => .faults
    | some endchr =>
        if endchr = pathSeparatorChar ∨ endchr = 47 then
          .found (some (cstrbufCat (junk 1) (some config) (cfgname.take (pname.len - 1))).1)
        else .found (some (cstrbufCat (junk 1) (some config) (printed (some pname))).1)

/-- `find_config_pathfile` -/
def findConfigPathfile (junk : Nat → Mem UInt8) (fuel : Nat) (w : Surroundings)
    (cfgpath : Option (List UInt8)) (cfgname : List UInt8)
    (envvarname etcconfpath : Option (List UInt8)) : Option (Search Cstrbuf) :=
  let tname := (cstrbufCat (junk 0) none (47 :: cfgname)).1
  let pname := (cstrbufCat (junk 1) none (pathSeparatorChar :: cfgname)).1
  match cfgpath with
  | some cfgpath => some (configGiven (junk 2) pname tname cfgpath cfgname)
  | none =>
      match getProcPathfile (junk 2) fuel w.exe with
      | none => none
      | some none => some .exits
      | some (some pathfile) =>
          let dname := getProcAbspath pathfile
          match findBeside (fun k => junk (k + 3)) w.pathfileExists dname pname with
          | some config => some (.found (some config))
          | none =>
              match envvarname.bind w.getenv with
              | some p => some (configOfEnv (fun k => junk (k + 7)) pname tname p cfgname)
              | none =>
                  match etcconfpath with
                  | some etc => some (.found (some
                      (cstrbufCat (junk 9) none (etc ++ printed (some pname))).1))
                  | none => some (.found none)

/-! ## What is wanted -/

/-- A path that is that of the file, or of a directory. -/
def joined (path name : List UInt8) : List UInt8 :=
  if 47 :: name <:+ path then path
  else if path.getLast? = some 47 then path ++ name
  else path ++ 47 :: name

/-- The directory of the program. -/
def programDir (exe : List UInt8) : List UInt8 := ((cutAt exe).map exe.take).getD exe

/-- The paths beside the program, in the order in which they are tried. -/
def besidePaths (dir name : List UInt8) : List (List UInt8) :=
  (dir ++ 47 :: name) :: (dir ++ (ascii "/conf/" ++ name)) ::
    ((lastIdx 47 dir).map fun i => dir.take i ++ (ascii "/conf/" ++ name)).toList

/-- A path that is given, or one of the environment: the last character of an empty one is read
outside of it. -/
def joinedFound (path name : List UInt8) : Search (List UInt8) :=
  if path = [] then .faults else .found (some (joined path name))

/-- What `find_config_pathfile` is for. -/
def configWanted (w : Surroundings) (cfgpath : Option (List UInt8)) (cfgname : List UInt8)
    (envvarname etcconfpath : Option (List UInt8)) : Search (List UInt8) :=
  match cfgpath, w.exe with
  | some path, _ => joinedFound path cfgname
  | none, none | none, some [] => .exits
  | none, some exe =>
      match (besidePaths (programDir exe) cfgname).find? w.pathfileExists,
        envvarname.bind w.getenv with
      | some path, _ => .found (some path)
      | none, some path => joinedFound path cfgname
      | none, none => .found (etcconfpath.map (· ++ 47 :: cfgname))

/-- Two searches end alike. -/
inductive Search.Rel {α β : Type} (R : α → β → Prop) : Search α → Search β → Prop where
  | exits : Search.Rel R .exits .exits
  | faults : Search.Rel R .faults .faults
  | found {config : Option α} {config' : Option β} : Option.Rel R config config' →
      Search.Rel R (.found config) (.found config')

/-! ## Buffers that hold texts -/

section Holds

variable {junk : Mem UInt8} {b dst : Cstrbuf} {s t : List UInt8}

/-- A buffer is printed as its text. -/
theorem Cstrbuf.Holds.printed_eq (h : b.Holds s) (hs : PlainArg s) : printed (some b) = s := by
  rw [Convd.printed_eq]
  show cstr b.contents = s
  rw [h.contents_eq, cstr_eq_self hs.ne_zero]

theorem cstrbufCat_none_holds (junk : Mem UInt8) (ht : t.length < 2 ^ 27) :
    (cstrbufCat junk none t).1.Holds t :=
  (catNew_makes junk ht).holds (cstrbufCat_ended junk none t)

theorem cstrbufCat_some_holds (junk : Mem UInt8) (h : b.Holds s) (ht : (s ++ t).length < 2 ^ 27) :
    (cstrbufCat junk (some b) t).1.Holds (s ++ t) := by
  obtain ⟨hsized, rfl, -⟩ := h
  have hmakes := @cstrbufCat_makes junk (some b) t (fun _ hb => Option.some.inj hb ▸ hsized) ht
  exact hmakes.holds (cstrbufCat_ended junk (some b) t)

/-- A size is of 32 bits. -/
theorem newMaxsz_lt (maxsz len : Nat) : newMaxsz maxsz len < 2 ^ 32 := by
  rw [newMaxsz]
  split
  · exact Nat.mod_lt _ (by decide)
  · split <;> exact Nat.mod_lt _ (by decide)

end Holds

/-! ## The directory of the program -/

section Program

variable {target exe : List UInt8}

/-- The loop leaves with the whole link. -/
theorem run_linkTurn (n : Nat) : ∀ {bufsize : Nat}, target.length < bufsize + 128 * n →
    run (linkTurn target) (n + 1) bufsize = some target := by
  induction n with
  | zero =>
      intro bufsize h
      have hlt : ¬ min target.length bufsize ≥ bufsize := by omega
      have hall : min target.length bufsize = target.length := by omega
      apply run_succ_leave
      rw [linkTurn, if_neg hlt, hall, List.take_length]
  | succ n ih =>
      intro bufsize h
      by_cases hlt : min target.length bufsize ≥ bufsize
      · have hagain : linkTurn target bufsize = .again (bufsize + 128) := if_pos hlt
        rw [run_succ_again hagain]
        exact ih (by omega)
      · have hall : min target.length bufsize = target.length := by omega
        apply run_succ_leave
        rw [linkTurn, if_neg hlt, hall, List.take_length]

theorem getProcPathfile_holds (junk : Mem UInt8) (hexe : PlainArg exe) (hne : exe ≠ []) :
    ∃ fuel b, getProcPathfile junk fuel (some exe) = some (some b) ∧ b.Holds exe := by
  have hrun := @run_linkTurn exe exe.length 128 (by omega)
  have hzero : FitsUb4 0 := .inl (by decide)
  refine ⟨exe.length + 1, _, ?_, cstrbufNew_holds junk hzero hexe (.inr rfl)⟩
  rw [getProcPathfile, hrun]
  cases exe with
  | nil => exact absurd rfl hne
  | cons c exe => rfl

theorem cutAt_lt {i : Nat} (h : cutAt exe = some i) : i < exe.length := by
  rw [cutAt] at h
  split at h
  · rename_i p q hp hq
    have hp := lt_of_lastIdx hp
    have hq := lt_of_lastIdx hq
    cases h
    split <;> assumption
  · cases h
    exact lt_of_lastIdx ‹_›
  · cases h
    exact lt_of_lastIdx ‹_›
  · cases h

theorem getProcAbspath_holds {b : Cstrbuf} (h : b.Holds exe) (hexe : PlainArg exe) :
    (getProcAbspath b).Holds (programDir exe) := by
  obtain ⟨hsized, hcontents, hended⟩ := h
  have htext : b.text = exe := Cstrbuf.Holds.text_eq ⟨hsized, hcontents, hended⟩ hexe
  have hlen : b.len = exe.length := Cstrbuf.Holds.len_eq ⟨hsized, hcontents, hended⟩
  have hshort := hexe.length_lt
  rw [getProcAbspath, programDir, htext]
  cases hcut : cutAt exe with
  | none =>
      have hall : toUb4 (cstr (b.str.load 0 b.len)).length = b.len := by
        rw [← Cstrbuf.contents, hcontents, cstr_eq_self hexe.ne_zero, toUb4_of_lt (by omega), hlen]
      dsimp only
      rw [hall]
      exact ⟨hsized, hcontents, hended⟩
  | some i =>
      have hlt := cutAt_lt hcut
      have hload : (b.str.store i [0]).load 0 i = exe.take i := by
        rw [Mem.load_store_before _ _ (Nat.le_refl i), ← hcontents, Cstrbuf.contents,
          Mem.take_load _ _ (by omega)]
      obtain ⟨k, hk⟩ := Nat.exists_eq_add_of_lt (hlen.symm ▸ hlt)
      have hfront : (b.str.store i [0]).load 0 b.len
          = exe.take i ++ 0 :: (b.str.store i [0]).load (i + 1) k := by
        rw [hk, Nat.add_assoc, Mem.load_add, hload, Nat.zero_add, Mem.load, Mem.store_cons_self]
      have hcstr : cstr ((b.str.store i [0]).load 0 b.len) = exe.take i := by
        rw [hfront]
        exact cstr_append_zero (fun c hc => hexe.ne_zero c (List.mem_of_mem_take hc)) _
      have hnew : toUb4 (cstr ((b.str.store i [0]).load 0 b.len)).length = i := by
        rw [hcstr, List.length_take, toUb4_of_lt (by omega)]
        omega
      dsimp only [Option.map_some, Option.getD_some]
      rw [hnew]
      have hroom := hsized.len_lt
      exact ⟨⟨by dsimp only; omega, hsized.maxsz_le, hsized.maxsz_lt⟩, hload,
        Mem.store_cons_self _ _ _ _⟩

end Program

/-! ## The search -/

section Search

variable {dir name path : List UInt8} {dname pname tname : Cstrbuf}

/-- Every text that is put together of the two is one that a buffer takes. -/
def Combines (path name : List UInt8) : Prop := PlainArg (path ++ (ascii "/conf/" ++ name))

/-- One of these is put between them. -/
def betweens : List (List UInt8) := [[], [47], ascii "/conf/"]

theorem Combines.plain (h : Combines path name) (mid : List UInt8) (hmid : mid ∈ betweens) :
    PlainArg (path ++ (mid ++ name)) := by
  have hlen : ∀ mid ∈ betweens, mid.length ≤ (ascii "/conf/").length := by decide
  have hfree : ∀ mid ∈ betweens, ∀ c ∈ mid, c ≠ 0 := by decide +kernel
  have hshort := h.length_lt
  have hne := h.ne_zero
  have hle := hlen mid hmid
  simp only [List.length_append] at hshort
  simp only [List.forall_mem_append] at hne
  refine ⟨?_, ?_⟩
  · simp only [List.length_append]
    omega
  · simp only [List.forall_mem_append]
    exact ⟨hne.1, hfree mid hmid, hne.2.2⟩

theorem Combines.plain_path (h : Combines path name) : PlainArg path := by
  have hshort := h.length_lt
  rw [List.length_append] at hshort
  exact ⟨by omega, fun c hc => h.ne_zero c (List.mem_append_left _ hc)⟩

theorem Combines.plain_name (h : Combines path name) : PlainArg (47 :: name) := by
  have hplain : PlainArg (path ++ 47 :: name) := h.plain [47] (by decide)
  have hshort := hplain.length_lt
  rw [List.length_append] at hshort
  exact ⟨by omega, fun c hc => hplain.ne_zero c (List.mem_append_right _ hc)⟩

theorem Combines.take (h : Combines path name) (i : Nat) : Combines (path.take i) name := by
  have hshort := h.length_lt
  have hne := h.ne_zero
  have hle := List.length_take_le' i path
  rw [List.length_append] at hshort
  rw [List.forall_mem_append] at hne
  refine ⟨?_, ?_⟩
  · rw [List.length_append]
    omega
  · rw [List.forall_mem_append]
    exact ⟨fun c hc => hne.1 c (List.mem_of_mem_take hc), hne.2⟩

/-- The three paths are tried one after the other. -/
theorem findBeside_finds (junk : Nat → Mem UInt8) (pathfileExists : List UInt8 → Bool)
    (hd : dname.Holds dir) (hp : pname.Holds (47 :: name)) (h : Combines dir name) :
    Option.Rel Cstrbuf.Holds (findBeside junk pathfileExists dname pname)
      ((besidePaths dir name).find? pathfileExists) := by
  have hprint := hd.printed_eq h.plain_path
  have hprint' := hp.printed_eq h.plain_name
  have hconf : pathSeparatorChar :: (ascii "conf" ++ 47 :: name) = ascii "/conf/" ++ name := rfl
  have hfirst :
      (cstrbufConcat junk (some dname) [some pname, none]).1.Holds (dir ++ 47 :: name) := by
    have hjoin : printed (some dname)
        ++ (untilNull [some pname, none]).flatMap (printed <| some ·) = dir ++ 47 :: name := by
      simp only [untilNull, List.flatMap_cons, List.flatMap_nil, List.append_nil, hprint, hprint']
    have hmakes := @cstrbufConcat_makes junk (some dname) [some pname, none]
      (hjoin ▸ (h.plain [47] (by decide)).length_lt)
    exact (hjoin ▸ hmakes).holds (cstrbufConcat_ended junk _ _)
  have hplain := h.plain (ascii "/conf/") (by decide)
  have hsecond := cstrbufCat_none_holds (junk 2) hplain.length_lt
  have htrunc := cstrbufTrunc_holds hsecond dname.len
  rw [hd.len_eq, List.take_left] at htrunc
  rw [findBeside, besidePaths, hprint, hprint', hconf, hd.len_eq]
  dsimp only
  rw [hfirst.text_eq (h.plain [47] (by decide)), List.find?_cons]
  cases pathfileExists (dir ++ 47 :: name) with
  | true => exact .some hfirst
  | false =>
      rw [hsecond.text_eq hplain, List.find?_cons]
      dsimp only
      rw [if_neg Bool.false_ne_true]
      cases pathfileExists (dir ++ (ascii "/conf/" ++ name)) with
      | true => exact .some hsecond
      | false =>
          rw [if_neg Bool.false_ne_true, htrunc.text_eq h.plain_path]
          dsimp only [pathSeparatorChar]
          cases lastIdx 47 dir with
          | none => exact .none
          | some i =>
              have hplain' := (h.take i).plain (ascii "/conf/") (by decide)
              have hthird := cstrbufCat_some_holds (junk 3) (cstrbufTrunc_holds htrunc i)
                hplain'.length_lt
              dsimp only
              rw [hthird.text_eq hplain', Option.map_some, Option.toList_some, List.find?_cons]
              cases pathfileExists (dir.take i ++ (ascii "/conf/" ++ name)) with
              | true => exact .some hthird
              | false => exact .none

/-- The test whether the path is that of the file. -/
theorem cstrEndwith_name {rest : List UInt8} (hp : pname.Holds (47 :: name))
    (h : Combines path name) :
    cstrEndwith (path ++ rest) (toInt path.length) pname.bytes (toInt pname.len) = true ↔
      47 :: name <:+ path := by
  have hshort := h.plain_path.length_lt
  have hshort' := h.plain_name.length_lt
  obtain ⟨rest', hbytes⟩ := hp.bytes_eq
  rw [hbytes, hp.len_eq, toInt_of_lt (by omega), @toInt_of_lt (47 :: name).length (by omega)]
  exact cstrEndwith_iff h.plain_path.ne_zero h.plain_name.ne_zero

/-- What is wanted, of tests and buffers that are those of the path. -/
theorem joinedFound_rel {ends ends' : Bool} {last : Option UInt8} {whole inside beside : Cstrbuf}
    (hends : ends = true ↔ 47 :: name <:+ path) (hends' : ends' = true ↔ 47 :: name <:+ path)
    (hlast : last = path.getLast?) (hwhole : whole.Holds path)
    (hinside : inside.Holds (path ++ name)) (hbeside : beside.Holds (path ++ 47 :: name)) :
    Search.Rel Cstrbuf.Holds
      (if ends || ends' then .found (some whole)
        else last.elim .faults fun endchr =>
          if endchr = pathSeparatorChar ∨ endchr = 47 then .found (some inside)
          else .found (some beside))
      (joinedFound path name) := by
  rw [joinedFound, joined]
  by_cases hsuffix : 47 :: name <:+ path
  · have hne : path ≠ [] := by
      rintro rfl
      exact List.cons_ne_nil _ _ (List.suffix_nil.mp hsuffix)
    rw [hends.mpr hsuffix, Bool.true_or, if_pos rfl, if_neg hne, if_pos hsuffix]
    exact .found (.some hwhole)
  · rw [Bool.eq_false_iff.mpr (hends.not.mpr hsuffix),
      Bool.eq_false_iff.mpr (hends'.not.mpr hsuffix), Bool.or_false, if_neg Bool.false_ne_true,
      if_neg hsuffix, hlast]
    cases hc : path.getLast? with
    | none =>
        rw [if_pos (List.getLast?_eq_none_iff.mp hc)]
        exact .faults
    | some c =>
        have hne : path ≠ [] := by
          rintro rfl
          cases hc
        rw [if_neg hne, Option.elim_some]
        by_cases hslash : c = 47
        · rw [if_pos (.inr hslash), hslash, if_pos rfl]
          exact .found (.some hinside)
        · have hor : ¬ (c = pathSeparatorChar ∨ c = 47) := not_or.mpr ⟨hslash, hslash⟩
          rw [if_neg hor, if_neg fun heq => hslash (Option.some.inj heq)]
          exact .found (.some hbeside)

/-- A path that is given. -/
theorem configGiven_finds (junk : Mem UInt8) (hp : pname.Holds (47 :: name))
    (ht : tname.Holds (47 :: name)) (h : Combines path name) :
    Search.Rel Cstrbuf.Holds (configGiven junk pname tname path name) (joinedFound path name) := by
  have hshort := h.plain_path.length_lt
  have hp' := @cstrEndwith_name name path pname [] hp h
  have ht' := @cstrEndwith_name name path tname [] ht h
  rw [List.append_nil] at hp' ht'
  have hsize : pname.len - 1 = name.length := by
    rw [hp.len_eq]
    rfl
  have hub4 : ub4OfInt (toInt path.length) = path.length := by
    rw [toInt_of_lt (by omega)]
    exact ub4OfInt_of_lt rfl (by omega)
  have hzero : FitsUb4 0 := .inl (by decide)
  rw [configGiven, hsize, List.take_length]
  have hinside : (cstrbufCat junk none (path ++ name)).1.Holds (path ++ name) :=
    cstrbufCat_none_holds junk (h.plain [] (by decide)).length_lt
  have hbeside : (cstrbufCat junk none (path ++ pathSeparatorChar :: name)).1.Holds
      (path ++ 47 :: name) :=
    cstrbufCat_none_holds junk (h.plain [47] (by decide)).length_lt
  generalize hlast : path.getLast? = last
  have hfinds := joinedFound_rel hp' ht' hlast.symm
    (cstrbufNew_holds junk hzero h.plain_path (.inr hub4)) hinside hbeside
  cases last with
  | none => exact hfinds
  | some c => exact hfinds

/-- The path of the environment, which is copied before it is looked at. -/
theorem configOfEnv_finds (junk : Nat → Mem UInt8) (hp : pname.Holds (47 :: name))
    (ht : tname.Holds (47 :: name)) (h : Combines path name) :
    Search.Rel Cstrbuf.Holds (configOfEnv junk pname tname path name) (joinedFound path name) := by
  have hshort := h.plain_path.length_lt
  have hshort' := h.plain_name.length_lt
  have hsize : pname.len - 1 = name.length := by
    rw [hp.len_eq]
    rfl
  have hub4 : ub4OfInt (toInt path.length) = path.length := by
    rw [toInt_of_lt (by omega)]
    exact ub4OfInt_of_lt rfl (by omega)
  rw [configOfEnv, hub4, hsize, List.take_length, hp.printed_eq h.plain_name]
  generalize hmaxsz : toUb4 (path.length + pname.len + 1) = maxsz
  have hfits : FitsUb4 maxsz := by
    rw [← hmaxsz, hp.len_eq, toUb4_of_lt (by omega)]
    exact .inl (by omega)
  have hconfig := cstrbufNew_holds (junk 0) hfits h.plain_path (.inl rfl)
  have halloc : (cstrbufNew (junk 0) maxsz (some (path ++ [0])) cstrbufErrorSizeLen).1.alloc
      < 2 ^ 32 := newMaxsz_lt _ _
  generalize (cstrbufNew (junk 0) maxsz (some (path ++ [0])) cstrbufErrorSizeLen).1 = config
    at hconfig halloc ⊢
  obtain ⟨rest, hbytes⟩ := hconfig.bytes_eq
  have hp' := @cstrEndwith_name name path pname rest hp h
  have ht' := @cstrEndwith_name name path tname rest ht h
  rw [← hbytes, ← hconfig.len_eq] at hp' ht'
  -- of an empty path the byte at index 2 ^ 32 - 1 is asked for, and no buffer has it
  have hlast : config.bytes[subUb4 config.len 1]? = path.getLast? := by
    by_cases hne : path = []
    · have hbefore : subUb4 0 1 = 2 ^ 32 - 1 := rfl
      rw [hconfig.len_eq, hne, List.length_nil, hbefore, Cstrbuf.bytes, Mem.getElem?_load,
        if_neg (by omega)]
      rfl
    · have hpos := List.length_pos_of_ne_nil hne
      rw [hconfig.len_eq, subUb4_of_le hpos (by omega), hbytes,
        List.getElem?_append_left (by omega), List.getLast?_eq_getElem?]
  have hinside : (cstrbufCat (junk 1) (some config) name).1.Holds (path ++ name) :=
    cstrbufCat_some_holds (junk 1) hconfig (h.plain [] (by decide)).length_lt
  have hbeside : (cstrbufCat (junk 1) (some config) (47 :: name)).1.Holds (path ++ 47 :: name) :=
    cstrbufCat_some_holds (junk 1) hconfig (h.plain [47] (by decide)).length_lt
  generalize config.bytes[subUb4 config.len 1]? = last at hlast ⊢
  have hfinds := joinedFound_rel hp' ht' hlast hconfig hinside hbeside
  cases last with
  | none => exact hfinds
  | some c => exact hfinds

/-- What is found is what is wanted, whatever memory holds: the same end, and a buffer that holds
the path.  The texts that are put together are ones that a buffer takes. -/
theorem findConfigPathfile_finds (junk : Nat → Mem UInt8) (w : Surroundings)
    {cfgpath envvarname etcconfpath : Option (List UInt8)} {cfgname : List UInt8}
    (hname : PlainArg (47 :: cfgname))
    (hpaths : ∀ path, some path ∈ [cfgpath, w.exe, envvarname.bind w.getenv, etcconfpath] →
      Combines path cfgname) :
    ∃ fuel r, findConfigPathfile junk fuel w cfgpath cfgname envvarname etcconfpath = some r ∧
      Search.Rel Cstrbuf.Holds r (configWanted w cfgpath cfgname envvarname etcconfpath) := by
  have htname := cstrbufCat_none_holds (junk 0) hname.length_lt
  have hpname := cstrbufCat_none_holds (junk 1) hname.length_lt
  cases cfgpath with
  | some path =>
      exact ⟨0, _, rfl, configGiven_finds (junk 2) hpname htname (hpaths path (by simp))⟩
  | none =>
      simp only [findConfigPathfile, configWanted]
      cases hexe : w.exe with
      | none => exact ⟨0, .exits, rfl, .exits⟩
      | some exe =>
          have hcombines : Combines exe cfgname := hpaths exe (by simp [hexe])
          by_cases hne : exe = []
          · subst hne
            exact ⟨1, .exits, rfl, .exits⟩
          · obtain ⟨fuel, b, hget, hb⟩ := getProcPathfile_holds (junk 2) hcombines.plain_path hne
            have hdir : Combines (programDir exe) cfgname := by
              rw [programDir]
              cases cutAt exe with
              | none => exact hcombines
              | some i => exact hcombines.take i
            have hbeside := findBeside_finds (fun k => junk (k + 3)) w.pathfileExists
              (getProcAbspath_holds hb hcombines.plain_path) hpname hdir
            refine ⟨fuel, ?_⟩
            rw [hget]
            obtain ⟨c, exe, rfl⟩ := List.exists_cons_of_ne_nil hne
            dsimp only [pathSeparatorChar]
            generalize findBeside (fun k => junk (k + 3)) w.pathfileExists (getProcAbspath b)
              (cstrbufCat (junk 1) none (47 :: cfgname)).1 = found at hbeside ⊢
            generalize (besidePaths (programDir (c :: exe)) cfgname).find? w.pathfileExists = wanted
              at hbeside ⊢
            cases hbeside with
            | some hfound => exact ⟨_, rfl, .found (.some hfound)⟩
            | none =>
                cases henv : envvarname.bind w.getenv with
                | some path =>
                    exact ⟨_, rfl, configOfEnv_finds (fun k => junk (k + 7)) hpname htname
                      (hpaths path (by simp [henv]))⟩
                | none =>
                    cases etcconfpath with
                    | none => exact ⟨_, rfl, .found .none⟩
                    | some etc =>
                        have hetc : Combines etc cfgname := hpaths etc (by simp)
                        refine ⟨_, rfl, .found (.some ?_)⟩
                        rw [hpname.printed_eq hname]
                        exact cstrbufCat_none_holds (junk 9)
                          (hetc.plain [47] (by decide)).length_lt

end Search

/-- A program in `bin`, and its configuration in the `conf` beside it. -/
def installed : Surroundings where
  exe := some (ascii "/opt/bin/codeconv")
  getenv := fun _ => none
  pathfileExists := fun path => path = ascii "/opt/conf/codeconv.cfg"

theorem findConfigPathfile_finds_installed : ∃ fuel b,
    findConfigPathfile (fun _ _ => 0) fuel installed none (ascii "codeconv.cfg") none none
      = some (.found (some b)) ∧ b.Holds (ascii "/opt/conf/codeconv.cfg") := by
  obtain ⟨fuel, r, hr, hrel⟩ := @findConfigPathfile_finds (fun _ _ => 0) installed none none none
    (ascii "codeconv.cfg") ⟨by decide, by decide +kernel⟩ (by
      intro path hpath
      have hexe : path = ascii "/opt/bin/codeconv" := by simpa [installed] using hpath
      rw [hexe]
      exact ⟨by decide +kernel, by decide +kernel⟩)
  have hwanted : configWanted installed none (ascii "codeconv.cfg") none none
      = .found (some (ascii "/opt/conf/codeconv.cfg")) := rfl
  rw [hwanted] at hrel
  cases hrel with
  | found hfound =>
      cases hfound with
      | some hholds => exact ⟨fuel, _, hr, hholds⟩

end Convd
