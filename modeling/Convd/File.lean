/-
# `Convd.File` — the system calls, and the file functions of `misc.h`

One input file is read and one output file is written.  What the operating system
does is an environment `Env`: which calls fail, how much of a transfer a call
that succeeds carries out (at least one byte of what there is), what the input
file holds, and what fresh memory holds.  The state `Sys` is the two files and a log of what
was called, in order, with its outcome.

`file_readbytes` and `file_writebytes` repeat short transfers.  Their loops move at
least one byte a turn, so the size asked for is fuel enough.

| call    | fails when                                                        |
|---------|-------------------------------------------------------------------|
| `lseek` | the environment says so, or the position would be negative or ≥ 2^63 |
| others  | the environment says so                                           |
-/
import Convd.Def

namespace Convd

/-! ## Environment and state -/

/-- The buffers a read goes to. -/
inductive Buf where
  | header
  | linebuf
  | headbuf
  deriving DecidableEq, Repr

/-- What is asked of the system or of iconv.  `usePos` is no call: it marks an
access to the position object, between `alloc` and `free`. -/
inductive Op where
  | openText
  | create
  | read (dst : Buf) (size : Nat)
  | seekSet (distance : Int)
  | seekCur (distance : Int)
  | write (size : Nat)
  | closeText
  | closeOut
  | alloc (size : Nat)
  | free
  | usePos
  | iconvReset
  | iconv (size : Nat)
  deriving DecidableEq, Repr

/-- An entry of the log: a call and whether it succeeded, what `ucs_file_read_next`
returned, or the text handed to `convd_conv_text`. -/
inductive Event where
  | call (op : Op) (ok : Bool)
  | readNext (ret : Int)
  | convText (input : List UInt8)
  deriving DecidableEq, Repr

/-- The operating system, as seen by one run. -/
structure Env where
  /-- The input file. -/
  file : List UInt8
  /-- Offsets in a file are `off64_t`. -/
  file_lt : file.length < 2 ^ 63
  /-- Whether the `n`-th call fails. -/
  fails : Nat → Bool
  /-- How far the `n`-th call goes, if it is a transfer. -/
  part : Nat → Nat
  /-- What memory that was not written holds. -/
  heap : Mem UInt8

/-- No call fails. -/
def Env.Faultless (e : Env) : Prop := ∀ t, e.fails t = false

/-- A file, the calls that fail, and transfers of a byte each. -/
def Env.bytewise (file : List UInt8) (h : file.length < 2 ^ 63) (fails : Nat → Bool) : Env :=
  ⟨file, h, fails, fun _ => 0, fun _ => 0⟩

/-- A file of one letter, and nothing fails. -/
def letterEnv : Env := .bytewise [97] (by decide) fun _ => false

/-- The files and the log. -/
structure Sys where
  tick : Nat
  pos : Nat
  out : List UInt8
  log : List Event

/-- Nothing has been called. -/
def Sys.init : Sys := ⟨0, 0, [], []⟩

/-- A call was made. -/
def Sys.did (s : Sys) (op : Op) (ok : Bool) : Sys :=
  { s with tick := s.tick + 1, log := s.log ++ [.call op ok] }

/-- An entry that is not a call. -/
def Sys.note (s : Sys) (ev : Event) : Sys := { s with log := s.log ++ [ev] }

/-! ## Calls -/

/-- How much a transfer of at most `avail` bytes moves. -/
def Env.moved (e : Env) (t avail : Nat) : Nat := if avail = 0 then 0 else 1 + e.part t % avail

/-- `read(hf, …, size)`; none on error. -/
def Env.read (e : Env) (dst : Buf) (size : Nat) (s : Sys) : Option (List UInt8) × Sys :=
  if e.fails s.tick then (none, s.did (.read dst size) false)
  else
    let got := e.moved s.tick (min size (e.file.length - s.pos))
    (some ((e.file.drop s.pos).take got),
      { s.did (.read dst size) true with pos := s.pos + got })

/-- `write(hf, …)`; none on error, else how many bytes were written. -/
def Env.write (e : Env) (bytes : List UInt8) (s : Sys) : Option Nat × Sys :=
  if e.fails s.tick then (none, s.did (.write bytes.length) false)
  else
    let put := e.moved s.tick bytes.length
    (some put, { s.did (.write bytes.length) true with out := s.out ++ bytes.take put })

/-- `lseek64` to a target, the call being `op`. -/
def Env.seek (e : Env) (op : Op) (target : Int) (s : Sys) : Int × Sys :=
  if e.fails s.tick ∨ target < 0 ∨ 2 ^ 63 ≤ target then (-1, s.did op false)
  else (target, { s.did op true with pos := target.toNat })

/-! ## `misc.h` -/

/-- `file_open_read`: whether there is a handle. -/
def fileOpenRead (e : Env) (s : Sys) : Bool × Sys :=
  if e.fails s.tick then (false, s.did .openText false)
  else (true, { s.did .openText true with pos := 0 })

/-- `file_write_new`: whether there is a handle, and with it an empty file. -/
def fileWriteNew (e : Env) (s : Sys) : Bool × Sys :=
  if e.fails s.tick then (false, s.did .create false)
  else (true, { s.did .create true with out := [] })

/-- `file_close`; nobody looks at what it returns. -/
def fileClose (op : Op) (s : Sys) : Sys := s.did op true

/-- `file_seek(hf, distance, fseek_pos_set)` -/
def fileSeekSet (e : Env) (distance : Int) (s : Sys) : Int × Sys :=
  e.seek (.seekSet distance) distance s

/-- `file_seek(hf, distance, fseek_pos_cur)` -/
def fileSeekCur (e : Env) (distance : Int) (s : Sys) : Int × Sys :=
  e.seek (.seekCur distance) (s.pos + distance) s

/-- The loop of `file_readbytes`, `size` bytes still to come; what was read comes
back on failure too. -/
def readLoop (e : Env) (dst : Buf) : Nat → Nat → Sys → Bool × List UInt8 × Sys
  | 0, _, s => (true, [], s)
  | fuel + 1, size, s =>
      if size = 0 then (true, [], s)
      else
        match e.read dst size s with
        | (none, s) => (false, [], s)
        | (some [], s) => (true, [], s)
        | (some (b :: bs), s) =>
            let (ok, rest, s) := readLoop e dst fuel (size - (bs.length + 1)) s
            (ok, b :: bs ++ rest, s)

/-- `file_readbytes`: the result, the bytes stored, the state. -/
def fileReadbytes (e : Env) (dst : Buf) (sizebuf : Nat) (s : Sys) : Int × List UInt8 × Sys :=
  let (ok, bs, s) := readLoop e dst sizebuf sizebuf s
  (if ok then toInt bs.length else -1, bs, s)

/-- The loop of `file_writebytes`. -/
def writeLoop (e : Env) : Nat → List UInt8 → Sys → Bool × Sys
  | 0, _, s => (true, s)
  | fuel + 1, bytes, s =>
      if bytes.length = 0 then (true, s)
      else
        match e.write bytes s with
        | (none, s) => (false, s)
        | (some put, s) => writeLoop e fuel (bytes.drop put) s

/-- `file_writebytes` -/
def fileWritebytes (e : Env) (bytes : List UInt8) (s : Sys) : Int × Sys :=
  let (ok, s) := writeLoop e bytes.length bytes s
  (if ok then 0 else -1, s)

/-! ## What a transfer does -/

theorem Env.moved_le (e : Env) (t avail : Nat) : e.moved t avail ≤ avail := by
  rw [Env.moved]
  split
  · exact Nat.zero_le _
  · have := Nat.mod_lt (e.part t) (Nat.pos_of_ne_zero ‹_›)
    omega

theorem Env.moved_pos (e : Env) (t : Nat) {avail : Nat} (h : 0 < avail) :
    0 < e.moved t avail := by
  rw [Env.moved, if_neg (Nat.ne_of_gt h)]
  omega

/-- The calls of a transfer that went well: all of one kind, all successful. -/
def Transfers (op : Nat → Op) (evs : List Event) : Prop := ∀ ev ∈ evs, ∃ n, ev = .call (op n) true

/-- The calls of a transfer that failed: the last one did. -/
def TransferFails (op : Nat → Op) (evs : List Event) : Prop :=
  ∃ oks n, evs = oks ++ [.call (op n) false] ∧ Transfers op oks

theorem Transfers.nil {op : Nat → Op} : Transfers op [] := fun _ h => nomatch h

theorem Transfers.cons {op : Nat → Op} {evs : List Event} (n : Nat) (h : Transfers op evs) :
    Transfers op (.call (op n) true :: evs) := by
  intro ev hev
  rcases List.mem_cons.mp hev with rfl | hev
  · exact ⟨n, rfl⟩
  · exact h ev hev

theorem TransferFails.cons {op : Nat → Op} {evs : List Event} (n : Nat)
    (h : TransferFails op evs) : TransferFails op (.call (op n) true :: evs) := by
  obtain ⟨oks, m, rfl, hoks⟩ := h
  exact ⟨_ :: oks, m, rfl, hoks.cons n⟩

/-- What `file_readbytes` comes to: the next `size` bytes of the file, as far as
there are any, or the part of them that was read before a call failed. -/
inductive ReadOutcome (e : Env) (dst : Buf) (size : Nat) (s : Sys) :
    Bool × List UInt8 × Sys → Prop where
  | read (t : Nat) (evs : List Event) : Transfers (.read dst) evs →
      ReadOutcome e dst size s (true, (e.file.drop s.pos).take size,
        { s with tick := t, pos := s.pos + ((e.file.drop s.pos).take size).length,
                 log := s.log ++ evs })
  | fails (k t : Nat) (evs : List Event) : TransferFails (.read dst) evs →
      (∃ t, e.fails t = true) → k ≤ size →
      ReadOutcome e dst size s (false, (e.file.drop s.pos).take k,
        { s with tick := t, pos := s.pos + ((e.file.drop s.pos).take k).length,
                 log := s.log ++ evs })

/-- One `read` that moves something: where the file stands after it. -/
theorem drop_take_moved {file : List UInt8} {pos got : Nat} {bs : List UInt8}
    (h : (file.drop pos).take got = bs) (size : Nat) (hsize : bs.length ≤ size) :
    bs ++ (file.drop (pos + bs.length)).take (size - bs.length) = (file.drop pos).take size := by
  obtain ⟨k, rfl⟩ := Nat.exists_eq_add_of_le hsize
  have hbs : (file.drop pos).take bs.length = bs := by
    rw [← h, List.length_take, List.take_eq_take_iff, List.length_drop]
    omega
  rw [Nat.add_sub_cancel_left, List.take_add, hbs, List.drop_drop]

/-- A turn of the loop that read `bs`, before what the rest of the loop does. -/
theorem ReadOutcome.cons {e : Env} {dst : Buf} {size n : Nat} {s : Sys} {bs : List UInt8}
    {r : Bool × List UInt8 × Sys} {got : Nat} (hbs : (e.file.drop s.pos).take got = bs)
    (hsize : bs.length ≤ size)
    (h : ReadOutcome e dst (size - bs.length)
      { s.did (.read dst n) true with pos := s.pos + bs.length } r) :
    ReadOutcome e dst size s (r.1, bs ++ r.2.1, r.2.2) := by
  have hcat := drop_take_moved hbs
  cases h with
  | read t evs hevs =>
      have hlen : s.pos + bs.length + ((e.file.drop (s.pos + bs.length)).take
            (size - bs.length)).length = s.pos + ((e.file.drop s.pos).take size).length := by
        rw [← hcat size hsize, List.length_append, Nat.add_assoc]
      have := @ReadOutcome.read e dst size s t _ (hevs.cons n)
      simpa only [hcat size hsize, hlen, Sys.did, List.append_assoc, List.singleton_append]
        using this
  | fails k t evs hevs hfault hk =>
      have hk' : bs.length ≤ bs.length + k := Nat.le_add_right _ _
      have hadd := hcat _ hk'
      rw [Nat.add_sub_cancel_left] at hadd
      have hlen : s.pos + bs.length + ((e.file.drop (s.pos + bs.length)).take k).length
          = s.pos + ((e.file.drop s.pos).take (bs.length + k)).length := by
        rw [← hadd, List.length_append, Nat.add_assoc]
      have := @ReadOutcome.fails e dst size s (bs.length + k) t _ (hevs.cons n) hfault (by omega)
      simpa only [hadd, hlen, Sys.did, List.append_assoc, List.singleton_append] using this

/-- The loop that finds nothing left to ask for, or nothing left to read. -/
theorem ReadOutcome.empty {e : Env} {dst : Buf} {size : Nat} {s : Sys}
    (h : (e.file.drop s.pos).take size = []) : ReadOutcome e dst size s (true, [], s) := by
  have := @ReadOutcome.read e dst size s s.tick [] .nil
  simpa only [h, List.length_nil, Nat.add_zero, List.append_nil] using this

theorem readLoop_outcome (e : Env) (dst : Buf) : ∀ {fuel size : Nat} (s : Sys), size ≤ fuel →
    ReadOutcome e dst size s (readLoop e dst fuel size s)
  | 0, size, s, h => .empty (by rw [Nat.le_zero.mp h, List.take_zero])
  | fuel + 1, size, s, h => by
      rw [readLoop]
      split
      · rename_i hsize
        exact .empty (by rw [hsize, List.take_zero])
      · rename_i hsize
        rcases hfail : e.fails s.tick with _ | _
        · have hgot := e.moved_le s.tick (min size (e.file.length - s.pos))
          have hpos := @Env.moved_pos e s.tick (min size (e.file.length - s.pos))
          generalize hg : e.moved s.tick (min size (e.file.length - s.pos)) = got at hgot hpos
          have hread : e.read dst size s = (some ((e.file.drop s.pos).take got),
              { s.did (.read dst size) true with pos := s.pos + got }) := by
            rw [Env.read, if_neg (by rw [hfail]; exact Bool.false_ne_true), hg]
          have hlen : ((e.file.drop s.pos).take got).length = got := by
            rw [List.length_take, List.length_drop]
            omega
          rw [hread]
          rcases hbs : (e.file.drop s.pos).take got with _ | ⟨b, bs⟩
          · rw [hbs, List.length_nil] at hlen
            have hend : (e.file.drop s.pos).take size = [] := by
              rw [List.drop_eq_nil_of_le (by omega), List.take_nil]
            have := @ReadOutcome.read e dst size s (s.tick + 1) _ (Transfers.nil.cons size)
            simpa only [hend, ← hlen, List.length_nil, Nat.add_zero, Sys.did] using this
          · rw [hbs] at hlen
            have ih := @readLoop_outcome e dst fuel (size - (bs.length + 1))
              { s.did (.read dst size) true with pos := s.pos + got } (by omega)
            rw [← hlen] at ih ⊢
            exact ih.cons hbs (by omega)
        · have hread : e.read dst size s = (none, s.did (.read dst size) false) := by
            rw [Env.read, if_pos hfail]
          rw [hread]
          have := @ReadOutcome.fails e dst size s 0 (s.tick + 1) _
            ⟨[], size, rfl, .nil⟩ ⟨_, hfail⟩ (Nat.zero_le _)
          simpa [Sys.did] using this

/-- What `file_writebytes` comes to: all the bytes at the end of the output file, or
the part of them that was written before a call failed. -/
inductive WriteOutcome (e : Env) (bytes : List UInt8) (s : Sys) : Bool × Sys → Prop where
  | wrote (t : Nat) (evs : List Event) : Transfers .write evs →
      WriteOutcome e bytes s (true,
        { s with tick := t, out := s.out ++ bytes, log := s.log ++ evs })
  | fails (k t : Nat) (evs : List Event) : TransferFails .write evs →
      (∃ t, e.fails t = true) →
      WriteOutcome e bytes s (false,
        { s with tick := t, out := s.out ++ bytes.take k, log := s.log ++ evs })

theorem WriteOutcome.empty {e : Env} {s : Sys} : WriteOutcome e [] s (true, s) := by
  have := @WriteOutcome.wrote e [] s s.tick [] .nil
  simpa only [List.append_nil] using this

theorem WriteOutcome.cons {e : Env} {bytes : List UInt8} {s : Sys} {n put : Nat}
    {r : Bool × Sys}
    (h : WriteOutcome e (bytes.drop put)
      { s.did (.write n) true with out := s.out ++ bytes.take put } r) :
    WriteOutcome e bytes s r := by
  cases h with
  | wrote t evs hevs =>
      have := @WriteOutcome.wrote e bytes s t _ (hevs.cons n)
      simpa only [Sys.did, List.append_assoc, List.singleton_append, List.take_append_drop]
        using this
  | fails k t evs hevs hfault =>
      have htake : bytes.take put ++ (bytes.drop put).take k = bytes.take (put + k) :=
        List.take_add.symm
      have := @WriteOutcome.fails e bytes s (put + k) t _ (hevs.cons n) hfault
      simpa only [Sys.did, List.append_assoc, List.singleton_append, htake] using this

theorem writeLoop_outcome (e : Env) : ∀ {fuel : Nat} {bytes : List UInt8} (s : Sys),
    bytes.length ≤ fuel → WriteOutcome e bytes s (writeLoop e fuel bytes s)
  | 0, bytes, s, h => by
      rw [List.length_eq_zero_iff.mp (Nat.le_zero.mp h)]
      exact .empty
  | fuel + 1, bytes, s, h => by
      rw [writeLoop]
      split
      · rename_i hnil
        rw [List.length_eq_zero_iff.mp hnil]
        exact .empty
      · rename_i hne
        rcases hfail : e.fails s.tick with _ | _
        · have hput := e.moved_le s.tick bytes.length
          have hpos := e.moved_pos s.tick (Nat.pos_of_ne_zero hne)
          generalize hp : e.moved s.tick bytes.length = put at hput hpos
          have hwrite : e.write bytes s = (some put,
              { s.did (.write bytes.length) true with out := s.out ++ bytes.take put }) := by
            rw [Env.write, if_neg (by rw [hfail]; exact Bool.false_ne_true), hp]
          rw [hwrite]
          exact .cons (writeLoop_outcome e _ (by rw [List.length_drop]; omega))
        · have hwrite : e.write bytes s = (none, s.did (.write bytes.length) false) := by
            rw [Env.write, if_pos hfail]
          rw [hwrite]
          have := @WriteOutcome.fails e bytes s 0 (s.tick + 1) _
            ⟨[], bytes.length, rfl, .nil⟩ ⟨_, hfail⟩
          simpa [Sys.did] using this

theorem fileReadbytes_cases (e : Env) (dst : Buf) (size : Nat) (s : Sys) {ahead : List UInt8}
    (hahead : e.file.drop s.pos = ahead) :
    (∃ t evs, Transfers (.read dst) evs ∧ fileReadbytes e dst size s =
      (toInt (ahead.take size).length, ahead.take size,
        { s with tick := t, pos := s.pos + (ahead.take size).length, log := s.log ++ evs })) ∨
    (∃ k t evs, TransferFails (.read dst) evs ∧ (∃ t, e.fails t = true) ∧
      fileReadbytes e dst size s = (-1, ahead.take k,
        { s with tick := t, pos := s.pos + (ahead.take k).length, log := s.log ++ evs })) := by
  subst hahead
  have h := readLoop_outcome e dst s (Nat.le_refl size)
  generalize hr : readLoop e dst size size s = r at h
  cases h with
  | read t evs hevs => exact .inl ⟨t, evs, hevs, by simp only [fileReadbytes, hr, if_true]⟩
  | fails k t evs hevs hfault hk =>
      exact .inr ⟨k, t, evs, hevs, hfault, by
        simp only [fileReadbytes, hr, Bool.false_eq_true, if_false]⟩

theorem fileWritebytes_cases (e : Env) (bytes : List UInt8) (s : Sys) :
    (∃ t evs, Transfers .write evs ∧ fileWritebytes e bytes s =
      (0, { s with tick := t, out := s.out ++ bytes, log := s.log ++ evs })) ∨
    (∃ k t evs, TransferFails .write evs ∧ (∃ t, e.fails t = true) ∧
      fileWritebytes e bytes s =
        (-1, { s with tick := t, out := s.out ++ bytes.take k, log := s.log ++ evs })) := by
  have h := writeLoop_outcome e s (Nat.le_refl bytes.length)
  generalize hr : writeLoop e bytes.length bytes s = r at h
  cases h with
  | wrote t evs hevs => exact .inl ⟨t, evs, hevs, by rw [fileWritebytes, hr]; rfl⟩
  | fails k t evs hevs hfault =>
      exact .inr ⟨k, t, evs, hevs, hfault, by rw [fileWritebytes, hr]; rfl⟩

theorem Env.seek_cases (e : Env) (op : Op) (target : Int) (s : Sys) :
    (0 ≤ target ∧ target < 2 ^ 63 ∧
      e.seek op target s = (target, { s.did op true with pos := target.toNat })) ∨
    ((e.fails s.tick = true ∨ target < 0 ∨ 2 ^ 63 ≤ target) ∧
      e.seek op target s = (-1, s.did op false)) := by
  by_cases h : e.fails s.tick ∨ target < 0 ∨ 2 ^ 63 ≤ target
  · exact .inr ⟨h, by rw [Env.seek, if_pos h]⟩
  · refine .inl ⟨?_, ?_, by rw [Env.seek, if_neg h]⟩
    · exact Int.not_lt.mp fun hneg => h (.inr (.inl hneg))
    · exact Int.not_le.mp fun hbig => h (.inr (.inr hbig))

end Convd
