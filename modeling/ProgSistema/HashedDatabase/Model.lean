import ProgSistema.Lib.RecordLayout

/-!
# A database of keys and data in two files

The index file begins with the free list pointer and the hash table. The index
records follow, each one with the pointer to the next record of its chain and its
length in front. The data file has one line for each record. Calls return no
state where they end the process by `err_dump` or `err_quit`, and a search that
goes round in a circle is `endless`.
-/

set_option autoImplicit false

namespace ProgSistema.HashedDatabase
open CRuntime RecordLayout

def idxlenSz : ℕ := 4

def sep : UInt8 := 58

def space : UInt8 := 32

def newline : UInt8 := 10

def ptrSz : ℕ := 7

def ptrMax : ℤ := 9999999

def nhashDef : ℕ := 137

def freeOff : ℤ := 0

def hashOff : ℕ := ptrSz

def dbInsert : ℤ := 1

def dbReplace : ℤ := 2

def dbInsertOrReplace : ℤ := 3

def idxlenMin : ℕ := 6

def idxlenMax : ℕ := 1024

def datlenMin : ℕ := 2

def datlenMax : ℕ := 1024

inductive Failure where
  | errDump (message : String)
  | errQuit (message : String) (ptrval : ℤ)
  | endless
  deriving DecidableEq, Repr

inductive Whence where
  | seekSet
  | seekEnd
  deriving DecidableEq, Repr

/-- What a process keeps of the database. The offset of its open index file
comes first; the data file is positioned anew for each access. -/
structure DB where
  position : ℕ
  idxbuf : Bytes
  datbuf : Bytes
  idxoff : ℤ
  idxlen : ℕ
  datoff : ℤ
  datlen : ℕ
  ptrval : ℤ
  ptroff : ℤ
  chainoff : ℤ
  deriving DecidableEq, Repr

structure State where
  idx : Bytes
  dat : Bytes
  db : DB
  deriving DecidableEq, Repr

def field (width : ℕ) (x : ℤ) : Bytes :=
  List.replicate (width-(printInt x).length) space++printInt x

/-- The sum of the loop in `dbHash`, an `unsigned long`; characters have signs. -/
def hashLoop : ℕ → ℕ → Bytes → ℕ
  | hval, _, [] => hval
  | hval, i, c::key => hashLoop (toSizeT (hval+c.toInt8.toInt*i)) (i+1) key

def dbHash (key : Bytes) : ℕ := hashLoop 0 1 key % nhashDef

/-! Reading. -/

def readPtr (offset : ℤ) (s : State) : Except Failure (ℤ × State) :=
  if offset < 0 then .error (.errDump "_db_readptr: lseek error to ptr field")
  else
    let asciiptr := pread s.idx offset.toNat ptrSz
    if asciiptr.length ≠ ptrSz then .error (.errDump "_db_readptr: read error of ptr field")
    else .ok (atoll (cstr asciiptr), { s with db.position := offset.toNat+ptrSz })

def splitRecord (idxbuf : Bytes) : Except Failure (Bytes × ℤ × ℕ) :=
  match idxbuf.dropWhile (· ≠ sep) with
  | [] => .error (.errDump "_db_readidx: missing first separator")
  | _::ptr1 =>
    match ptr1.dropWhile (· ≠ sep) with
    | [] => .error (.errDump "_db_readidx: missing second separator")
    | _::ptr2 =>
      if sep ∈ ptr2 then .error (.errDump "_db_readidx: too many separators")
      else
        let datoff := atoll (ptr1.takeWhile (· ≠ sep))
        let datlen := toSizeT (atoll ptr2)
        if datoff < 0 then .error (.errDump "_db_readidx: starting offset < 0")
        else if datlen = 0 ∨ datlenMax < datlen then .error (.errDump "_db_readidx: invalid length")
        else .ok (idxbuf.takeWhile (· ≠ sep), datoff, datlen)

def readIdx (offset : ℤ) (s : State) : Except Failure (ℤ × State) :=
  let idxoff : ℤ := if offset = 0 then s.db.position else offset
  if idxoff < 0 then .error (.errDump "_db_readidx: lseek error")
  else
    let start := idxoff.toNat
    let front := pread s.idx start (ptrSz+idxlenSz)
    if front.length ≠ ptrSz+idxlenSz then
      if front = [] ∧ offset = 0 then .ok (-1, { s with db.idxoff := idxoff })
      else .error (.errDump "_db_readidx: readv error of index record")
    else
      let ptrval := atoll (cstr (front.take ptrSz))
      let idxlen := toSizeT (toInt (atoll (cstr (front.drop ptrSz))))
      if idxlen < idxlenMin ∨ idxlenMax < idxlen then
        .error (.errDump "_db_readidx: invalid length")
      else
        let record := pread s.idx (start+(ptrSz+idxlenSz)) idxlen
        if record.length ≠ idxlen then
          .error (.errDump "_db_readidx: read error of index record")
        else if record.getLast? ≠ some newline then
          .error (.errDump "_db_readidx: missing newline")
        else do
          let (key, datoff, datlen) ← splitRecord (cstr record.dropLast)
          .ok (ptrval, { s with db := { s.db with
            position := start+(ptrSz+idxlenSz)+idxlen, idxbuf := key, idxoff := idxoff,
            idxlen := idxlen, datoff := datoff, datlen := datlen, ptrval := ptrval } })

def readDat (s : State) : Except Failure (Bytes × State) :=
  if s.db.datoff < 0 then .error (.errDump "_db_readdat: lseek error")
  else
    let record := pread s.dat s.db.datoff.toNat s.db.datlen
    if record.length ≠ s.db.datlen then .error (.errDump "_db_readdat: read error")
    else if record.getLast? ≠ some newline then .error (.errDump "_db_readdat: missing newline")
    else
      let datbuf := cstr record.dropLast
      .ok (datbuf, { s with db.datbuf := datbuf })

/-! Writing. -/

def lseek (size : ℕ) (offset : ℤ) : Whence → ℤ
  | .seekSet => offset
  | .seekEnd => size+offset

def writeDat (data : Bytes) (offset : ℤ) (whence : Whence) (s : State) : Except Failure State :=
  let datoff := lseek s.dat.length offset whence
  if datoff < 0 then .error (.errDump "_db_writedat: lseek error")
  else .ok { s with
    dat := pwrite s.dat datoff.toNat (data++[newline])
    db := { s.db with datoff := datoff, datlen := data.length+1 } }

def record (key : Bytes) (datoff : ℤ) (datlen : ℕ) : Bytes :=
  key++sep::printInt datoff++sep::printInt datlen++[newline]

/-- The record is printed into `idxbuf` also where `key` is there already. -/
def writeIdx (key : Bytes) (offset : ℤ) (whence : Whence) (ptrval : ℤ) (s : State) :
    Except Failure State :=
  if ptrval < 0 ∨ ptrMax < ptrval then
    .error (.errQuit "_db_writeidx: invalid ptr: %d" ptrval)
  else
    let idxbuf := record key s.db.datoff s.db.datlen
    let len := idxbuf.length
    if len < idxlenMin ∨ idxlenMax < len then .error (.errDump "_db_writeidx: invalid length")
    else
      let idxoff := lseek s.idx.length offset whence
      if idxoff < 0 then .error (.errDump "_db_writeidx: lseek error")
      else .ok { s with
        idx := pwrite s.idx idxoff.toNat (field ptrSz ptrval++field idxlenSz len++idxbuf)
        db := { s.db with
          position := idxoff.toNat+(ptrSz+idxlenSz+len), idxbuf := idxbuf, idxoff := idxoff,
          ptrval := ptrval } }

def writePtr (offset ptrval : ℤ) (s : State) : Except Failure State :=
  if ptrval < 0 ∨ ptrMax < ptrval then
    .error (.errQuit "_db_writeptr: invalid ptr: %d" ptrval)
  else if offset < 0 then .error (.errDump "_db_writeptr: lseek error to ptr field")
  else .ok { s with
    idx := pwrite s.idx offset.toNat (field ptrSz ptrval)
    db.position := offset.toNat+ptrSz }

/-! The operations. -/

/-- The loop along a chain that `findAndLock` and `findFree` make, up to a record
with a wanted key and data length. The pointer to `offset` is at `saveoffset`. A
chain with more records than the file has bytes goes round in a circle. -/
def walk (wanted : Bytes → ℕ → Bool) : ℕ → ℤ → ℤ → State → Except Failure (ℤ × ℤ × State)
  | 0, _, _, _ => .error .endless
  | fuel+1, saveoffset, offset, s =>
    if offset = 0 then .ok (saveoffset, 0, s)
    else do
      let (nextoffset, s) ← readIdx offset s
      if wanted s.db.idxbuf s.db.datlen then .ok (saveoffset, offset, s)
      else walk wanted fuel offset nextoffset s

def findAndLock (key : Bytes) (s : State) : Except Failure (ℤ × State) := do
  let chainoff : ℤ := dbHash key*ptrSz+hashOff
  let s := { s with db.chainoff := chainoff }
  let (offset, s) ← readPtr chainoff s
  let (ptroff, offset, s) ← walk (fun idxbuf _ => idxbuf = key) (s.idx.length+1) chainoff offset s
  .ok (if offset = 0 then -1 else 0, { s with db.ptroff := ptroff })

def dbFetch (key : Bytes) (s : State) : Except Failure (Option Bytes × State) := do
  let (rc, s) ← findAndLock key s
  if rc < 0 then .ok (none, s)
  else
    let (data, s) ← readDat s
    .ok (some data, s)

def doDelete (s : State) : Except Failure State := do
  let s := { s with db := { s.db with
    datbuf := List.replicate (s.db.datlen-1) space
    idxbuf := s.db.idxbuf.map fun _ => space } }
  let s ← writeDat s.db.datbuf s.db.datoff .seekSet s
  let (freeptr, s) ← readPtr freeOff s
  let saveptr := s.db.ptrval
  let s ← writeIdx s.db.idxbuf s.db.idxoff .seekSet freeptr s
  let s ← writePtr freeOff s.db.idxoff s
  writePtr s.db.ptroff saveptr s

def dbDelete (key : Bytes) (s : State) : Except Failure (ℤ × State) := do
  let (rc, s) ← findAndLock key s
  if rc = 0 then
    let s ← doDelete s
    .ok (0, s)
  else .ok (-1, s)

def findFree (keylen datlen : ℕ) (s : State) : Except Failure (ℤ × State) := do
  let (offset, s) ← readPtr freeOff s
  let (saveoffset, offset, s) ←
    walk (fun idxbuf len => idxbuf.length = keylen ∧ len = datlen) (s.idx.length+1) freeOff offset s
  if offset = 0 then .ok (-1, s)
  else
    let s ← writePtr saveoffset s.db.ptrval s
    .ok (0, s)

def appendRecord (key data : Bytes) (ptrval : ℤ) (s : State) : Except Failure State := do
  let s ← writeDat data 0 .seekEnd s
  let s ← writeIdx key 0 .seekEnd ptrval s
  writePtr s.db.chainoff s.db.idxoff s

/-- `dbStore` where no record of the key has been found: a free record of the same
lengths is used again, if there is one. -/
def insertRecord (key data : Bytes) (s : State) : Except Failure State := do
  let (ptrval, s) ← readPtr s.db.chainoff s
  let (rc, s) ← findFree key.length (data.length+1) s
  if rc < 0 then appendRecord key data ptrval s
  else
    let s ← writeDat data s.db.datoff .seekSet s
    let s ← writeIdx key s.db.idxoff .seekSet ptrval s
    writePtr s.db.chainoff s.db.idxoff s

def replaceRecord (key data : Bytes) (s : State) : Except Failure State :=
  if data.length+1 ≠ s.db.datlen then do
    let s ← doDelete s
    let (ptrval, s) ← readPtr s.db.chainoff s
    appendRecord key data ptrval s
  else writeDat data s.db.datoff .seekSet s

def dbStore (key data : Bytes) (flag : ℤ) (s : State) : Except Failure (ℤ × State) :=
  if flag ≠ dbInsert ∧ flag ≠ dbReplace ∧ flag ≠ dbInsertOrReplace then .ok (-1, s)
  else
    let datlen := data.length+1
    if datlen < datlenMin ∨ datlenMax < datlen then
      .error (.errDump "db_store: invalid data length")
    else do
      let (rc, s) ← findAndLock key s
      if rc < 0 then
        if flag = dbReplace then .ok (-1, s)
        else
          let s ← insertRecord key data s
          .ok (0, s)
      else if flag = dbInsert then .ok (1, s)
      else
        let s ← replaceRecord key data s
        .ok (0, s)

def dbRewind (s : State) : State :=
  let offset := (nhashDef+1)*ptrSz+1
  { s with db := { s.db with idxoff := offset, position := offset } }

/-- The loop of `dbNextrec`; whether a record was found before the end of the
file. Keys of blanks only are those of deleted records. -/
def nextLoop : ℕ → State → Except Failure (Bool × State)
  | 0, _ => .error .endless
  | fuel+1, s => do
    let (rc, s) ← readIdx 0 s
    if rc < 0 then .ok (false, s)
    else if s.db.idxbuf.all (· = space) then nextLoop fuel s
    else .ok (true, s)

def dbNextrec (s : State) : Except Failure (Option (Bytes × Bytes) × State) := do
  let (found, s) ← nextLoop (s.idx.length+1) s
  if found then
    let key := s.db.idxbuf
    let (data, s) ← readDat s
    .ok (some (key, data), s)
  else .ok (none, s)

def dbAlloc : DB := ⟨0, [], [], 0, 0, 0, 0, 0, 0, 0⟩

def chainPointers : Bytes :=
  (List.replicate (nhashDef+1) (field ptrSz 0)).flatten++[newline]

/-- `creat` and `trunc` are the flags of `oflag`, on files that can be opened. -/
def dbOpen (creat trunc : Bool) (idx dat : Bytes) : State :=
  let idx := if trunc then [] else idx
  let dat := if trunc then [] else dat
  let idx := if creat ∧ trunc ∧ idx = [] then chainPointers else idx
  dbRewind ⟨idx, dat, dbAlloc⟩

end ProgSistema.HashedDatabase
