import Mathlib

/-!
# unpack

`getdict` reads the dictionary of a packed file, `decode` the text.

* `St` : the buffers, the dictionary, and what has been written.
* `getdict`, `decode` : with what they come back with.
* `Access` : what of the dictionary is looked at, in the ghost field `log`.

The index of an array may leave it: what stands there is then what comes next in memory.
-/

namespace Hpux

namespace Unpack

open Function

def US : UInt8 := 0o37

def RS : UInt8 := 0o36

def BUFSIZ : ℕ := 1024

/-- An access to `intnodes` or `tree` at a level, or the fetch of a character by its place in `characters`. -/
inductive Access
  | level (l : ℕ)
  | char (p : ℤ)
  deriving DecidableEq

/-- What a call comes back with: the messages that are printed, the old style of packing which is left to
`expand`, and `running` for a loop that has not come to an end. -/
inductive Ret
  | success
  | readError
  | notPacked
  | unpackError
  | writeError
  | expand
  | running
  deriving DecidableEq

/-- Whether the reads and writes succeed, by the number of those before. -/
structure Io where
  readOk : ℕ → Bool
  writeOk : ℕ → Bool

/-- The variables of the program, those of `decode` with them.  Pointers into `inbuff` and `characters` are
places in them, `out` is what lies before `outp` in `outbuff`, `rest` the part of the input file that has not
been read. -/
structure St where
  rest : List UInt8
  written : List UInt8
  reads : ℕ
  writes : ℕ
  inbuff : ℕ → UInt8
  inleft : ℤ
  inp : ℕ
  out : List UInt8
  origsize : BitVec 32
  maxlev : ℕ
  intnodes : ℕ → ℤ
  tree : ℕ → ℤ
  characters : ℤ → UInt8
  eof : ℤ
  lev : ℕ
  i : ℤ
  log : List Access

/-- A piece of the program goes on or returns. -/
inductive Turn
  | on (s : St)
  | ret (r : Ret × St)

/-- Record an access. -/
def St.touch (a : Access) (s : St) : St := { s with log := s.log ++ [a] }

/-- `read (infile, &inbuff[0], BUFSIZ)`. -/
def St.read (io : Io) (s : St) : Option St :=
  if io.readOk s.reads then
    some { s with
      inbuff := fun k => (s.rest.take BUFSIZ)[k]?.getD (s.inbuff k)
      inleft := (s.rest.take BUFSIZ).length
      rest := s.rest.drop BUFSIZ
      reads := s.reads + 1 }
  else none

/-- `write (outfile, &outbuff[0], c)` for all of `outbuff` that is filled. -/
def St.write (io : Io) (s : St) : Option St :=
  if io.writeOk s.writes then
    some { s with written := s.written ++ s.out, out := [], writes := s.writes + 1 }
  else none

/-- `decode` at the end mark: what is left in the buffer is written, and the length checked. -/
def endMark (io : Io) (s : St) : Ret × St :=
  match s.write io with
  | none => (.writeError, s)
  | some s' =>
    let s' := { s' with origsize := s'.origsize - BitVec.ofNat 32 s.out.length }
    if s'.origsize ≠ 0 then (.unpackError, s') else (.success, s')

/-- `decode` at the leaf of a character, `*outp++ = *p` and what follows. -/
def putChar (io : Io) (p : ℤ) (s : St) : Turn :=
  let s := { s with out := s.out ++ [s.characters p] }.touch (.char p)
  if s.out.length = BUFSIZ then
    match s.write io with
    | none => .ret (.writeError, s)
    | some s => .on { s with origsize := s.origsize - BitVec.ofNat 32 BUFSIZ, lev := 1, i := 0 }
  else .on { s with lev := 1, i := 0 }

/-- One bit of a code: the body of the inner loop of `decode`. -/
def bit (io : Io) (b : Bool) (s : St) : Turn :=
  let s := { s with i := 2 * s.i + b.toNat }.touch (.level s.lev)
  let j := s.i - s.intnodes s.lev
  if 0 ≤ j then
    let p := s.tree s.lev + j
    if p = s.eof then .ret (endMark io (s.touch (.level s.lev))) else putChar io p (s.touch (.level s.lev))
  else .on { s with lev := s.lev + 1 }

/-- The inner loop of `decode`, for what is left of a byte. -/
def bits (io : Io) : ℕ → ℕ → St → Turn
  | 0, _, s => .on s
  | bitsleft + 1, c, s =>
    match bit io (c.testBit 7) s with
    | .on s => bits io bitsleft (c * 2) s
    | .ret r => .ret r

/-- `decode`, from the head of the outer loop. -/
def decodeLoop (io : Io) : ℕ → St → Ret × St
  | 0, s => (.running, s)
  | fuel + 1, s =>
    match (if s.inleft ≤ 0 then (s.read io).map fun s => { s with inp := 0 } else some s) with
    | none => (.readError, s)
    | some s =>
      let s := { s with inleft := s.inleft - 1 }
      if s.inleft < 0 then (.unpackError, s)
      else
        match bits io 8 (s.inbuff s.inp).toNat { s with inp := s.inp + 1 } with
        | .on s => decodeLoop io fuel s
        | .ret r => r

/-- `decode`.  The outer loop takes a byte of the input at each turn, so the fuel is enough. -/
def decode (io : Io) (s : St) : Ret × St :=
  decodeLoop io (s.inleft.toNat + s.rest.length + 1) { s with out := [], lev := 1, i := 0 }

/-- Reconstruct the integer. -/
def readSize : ℕ → St → St
  | 0, s => s
  | n + 1, s =>
    readSize n { s with
      origsize := s.origsize * 256 + BitVec.ofNat 32 (s.inbuff s.inp).toNat
      inp := s.inp + 1 }

/-- `intnodes[i] = *inp++ & 0377` for `n` levels from `i`. -/
def readCounts : ℕ → ℕ → St → St
  | 0, _, s => s
  | n + 1, i, s =>
    readCounts n (i + 1) ({ s with
      intnodes := update s.intnodes i (s.inbuff s.inp).toNat
      inp := s.inp + 1 }.touch (.level i))

/-- `*eof++ = *inp++`. -/
def St.takeChar (s : St) : St :=
  { s with characters := update s.characters s.eof (s.inbuff s.inp), eof := s.eof + 1, inp := s.inp + 1 }

/-- The characters of a level: `c` of them are still to come. -/
def readChars : ℕ → St → Turn
  | 0, s => .on s
  | c + 1, s => if 255 ≤ s.eof then .ret (.notPacked, s) else readChars c s.takeChar

/-- The meat of the dictionary, for `n` levels from `i`. -/
def readLevels : ℕ → ℕ → St → Turn
  | 0, _, s => .on s
  | n + 1, i, s =>
    let s := { s with tree := update s.tree i s.eof }.touch (.level i)
    match readChars (s.intnodes i).toNat (s.touch (.level i)) with
    | .on s => readLevels n (i + 1) s
    | .ret r => .ret r

/-- Convert `intnodes[i]` to be the number of internal nodes possessed by level `i`. -/
def halve : ℕ → ℤ → St → St
  | 0, _, s => s
  | i + 1, nchildren, s =>
    halve i (nchildren / 2 + s.intnodes (i + 1))
      ({ s with intnodes := update s.intnodes (i + 1) (nchildren / 2) }.touch (.level (i + 1)))

/-- `getdict` when the characters of all levels but the last one have been read. -/
def endTree (io : Io) (s : St) : Ret × St :=
  let s := s.takeChar
  let s := { s with intnodes := update s.intnodes s.maxlev (s.intnodes s.maxlev + 2) }.touch (.level s.maxlev)
  let s := { s with inleft := s.inleft - s.inp }
  if s.inleft < 0 then (.notPacked, s) else decode io (halve s.maxlev 0 s)

/-- `getdict` after the header has been checked, at the number of levels. -/
def getTree (io : Io) (s : St) : Ret × St :=
  let s := { s with maxlev := (s.inbuff s.inp).toNat, inp := s.inp + 1 }
  if 24 < s.maxlev then (.notPacked, s)
  else
    match readLevels s.maxlev 1 (readCounts s.maxlev 1 s) with
    | .ret r => r
    | .on s => endTree io s

/-- The variables before the first `read`, with the file just opened as `infile`.  The other variables are as the
last file left them. -/
def St.fresh (file : List UInt8) (s : St) : St :=
  { s with rest := file, written := [], log := [], eof := 0, inbuff := update s.inbuff 6 25 }

/-- `getdict`, for a file. -/
def getdict (io : Io) (file : List UInt8) (s : St) : Ret × St :=
  match (s.fresh file).read io with
  | none => (.readError, s.fresh file)
  | some s =>
    if s.inbuff 0 ≠ US then (.notPacked, s)
    else if s.inbuff 1 = US then (.expand, s)
    else if s.inbuff 1 ≠ RS then (.notPacked, s)
    else getTree io (readSize 4 { s with inp := 2, origsize := 0 })

end Unpack

end Hpux
