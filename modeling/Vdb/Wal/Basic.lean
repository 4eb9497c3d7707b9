import Vdb.Wal.Record
import Mathlib.Data.List.Sort

/-!
# The write-ahead log

`Wal`: segments of records in the files of a directory, of which the last one is written to.

* A system call fails only where its environment says so: a file that is missing or in the way, or
  the `pwrite` of a frame, after some of its bytes.  `dup`, `close`, `fsync` and the calls that
  write the header of a segment succeed.  The text of an exception ends with that of `errno`.
* `File.synced` counts the bytes of a file that are on stable storage.
-/

namespace Vdb

open Metadata

/-! ### Files -/

structure File where
  bytes : Bytes := []
  /-- So many bytes are on stable storage. -/
  synced : ℕ := 0
  deriving DecidableEq

namespace File

variable (f : File)

/-- `pwrite`, which fills a gap with zeros. -/
def writeAt (off : ℕ) (data : Bytes) : File where
  bytes := f.bytes.take off ++ (List.replicate (off - f.bytes.length) 0 ++
    (data ++ f.bytes.drop (off + data.length)))
  synced := min f.synced off

def sync : File := { f with synced := f.bytes.length }

/-- `ftruncate` to a smaller size. -/
def cut (off : ℕ) : File := ⟨f.bytes.take off, min f.synced off⟩

end File

/-- The regular files of a directory by name. -/
abbrev Dir := List (Bytes × File)

namespace Dir

def find (d : Dir) (name : Bytes) : Option File := d.lookup name

def modify (d : Dir) (name : Bytes) (f : File → File) : Dir :=
  d.map fun e => if e.1 = name then (e.1, f e.2) else e

def create (d : Dir) (name : Bytes) : Dir := d ++ [(name, File.mk [] 0)]

def unlink (d : Dir) (name : Bytes) : Dir := d.filter fun e => e.1 ≠ name

end Dir

/-- `sys_check(false, what)`. -/
def sysError (what errno : Bytes) : Exn := .runtimeError (what ++ ascii ": " ++ errno)

def noSuchFile : Bytes := ascii "No such file or directory"

/-! ### Segment names -/

/-- `std::filesystem::path(dir) / name`. -/
def joinPath (dir name : Bytes) : Bytes :=
  if dir = [] ∨ dir.getLast? = some 47 then dir ++ name else dir ++ 47 :: name

/-- The last `w` decimal digits of a number. -/
def lastDigits : ℕ → ℕ → Bytes
  | 0, _ => []
  | w + 1, n => lastDigits w (n / 10) ++ [UInt8.ofNat (48 + n % 10)]

/-- `%012llu`. -/
def decimal (n : ℕ) : Bytes :=
  if n < 10 ^ 12 then lastDigits 12 n
  else (Nat.toDigits 10 n).map fun c => UInt8.ofNat c.toNat

/-- The file name of `segment_path_`. -/
def segmentName (number : ℕ) : Bytes := ascii "wal-" ++ (decimal number ++ ascii ".log")

def isSpace (c : UInt8) : Bool := c = 32 || (9 ≤ c && c ≤ 13)

def isDigit (c : UInt8) : Bool := 48 ≤ c && c ≤ 57

/-- The sign `strtoull` skips, and whether it negates the number. -/
def skipSign : Bytes → Bool × Bytes
  | 43 :: s => (false, s)
  | 45 :: s => (true, s)
  | s => (false, s)

/-- `std::stoull`, or `none` if it throws. -/
def stoull (s : Bytes) : Option ℕ :=
  let (negative, s) := skipSign (s.dropWhile isSpace)
  let digits := s.takeWhile isDigit
  let n := digits.foldl (fun n d => 10 * n + (d.toNat - 48)) 0
  if digits = [] ∨ 2 ^ 64 ≤ n then none
  else some (if negative then (2 ^ 64 - n) % 2 ^ 64 else n)

/-- The number of a segment file. -/
def segmentNumber (name : Bytes) : Option ℕ :=
  if name.length ≠ 20 then none
  else if name.take 4 ≠ ascii "wal-" then none
  else if name.drop 16 ≠ ascii ".log" then none
  else stoull ((name.drop 4).take 12)

/-- `discover_segments_`. -/
def discoverSegments (d : Dir) : List ℕ :=
  (d.filterMap fun e => segmentNumber e.1).insertionSort (· ≤ ·)

/-! ### Headers -/

/-- What a log is opened with and every segment header records. -/
structure Opener where
  dim : UInt32
  metric : UInt8
  schemaFp : UInt64
  deriving DecidableEq

structure WalHeader where
  magic : ℕ := 0x56444257
  version : ℕ := 2
  dim : ℕ := 0
  metric : ℕ := 0
  schemaFp : ℕ := 0
  deriving DecidableEq

def walHeaderSize : ℕ := 32

def encodeHeader (o : Opener) : Bytes :=
  let buf := putNat 4 0x56444257 ++ (putNat 2 2 ++ (putNat 4 o.dim.toNat ++
    (putNat 1 o.metric.toNat ++ putNat 8 o.schemaFp.toNat)))
  buf ++ List.replicate (walHeaderSize - buf.length) 0

/-- The header at the front, if there is a valid one. -/
def decodeHeader (data : Bytes) : Option WalHeader :=
  if data.length < walHeaderSize then none
  else
    let h : WalHeader := {
      magic := getNat (data.take 4)
      version := getNat ((data.drop 4).take 2)
      dim := getNat ((data.drop 6).take 4)
      metric := getNat ((data.drop 10).take 1)
      schemaFp := getNat ((data.drop 11).take 8) }
    if h.magic = 0x56444257 ∧ h.version = 2 then some h else none

/-! ### The log -/

structure Segment where
  number : ℕ
  firstLsn : ℕ := 0
  lastLsn : ℕ := 0
  isSealed : Bool := false
  deriving DecidableEq

/-- Note a record of the segment. -/
def Segment.note (s : Segment) (lsn : ℕ) : Segment :=
  { s with firstLsn := if s.firstLsn = 0 then lsn else s.firstLsn, lastLsn := lsn }

/-- A log, with the files of its directory. -/
structure Wal where
  files : Dir := []
  /-- `dir_`. -/
  dir : Bytes
  opener : Opener
  segMax : ℕ := 16 * 1024 * 1024
  segments : List Segment := []
  /-- The name of the file it is open on. -/
  activeFd : Option Bytes := none
  activeBytes : ℕ := 0
  highestLsn : ℕ := 0

/-- A `pwrite` that fails after so many bytes, with this `errno`. -/
structure Fault where
  written : ℕ
  errno : Bytes := ascii "Input/output error"
  deriving DecidableEq

namespace Wal

variable {σ : Type} (w : Wal)

/-- `segment_path_`. -/
def segmentPath (number : ℕ) : Bytes := joinPath w.dir (segmentName number)

def modifyFile (name : Bytes) (f : File → File) : Wal :=
  { w with files := w.files.modify name f }

/-- Note a record of the segment number `i` of the list. -/
def note (i lsn : ℕ) : Wal :=
  { w with
    segments := w.segments.modify i fun s => s.note lsn
    highestLsn := max w.highestLsn lsn }

/-- The number `open_new_segment_` gives. -/
def nextNumber : ℕ :=
  match w.segments.getLast? with
  | none => 1
  | some s => s.number + 1

def openNewSegment : Outcome Wal Unit :=
  let name := segmentName w.nextNumber
  if (w.files.find name).isSome then
    .error (sysError (ascii "create WAL segment") (ascii "File exists")) w
  else
    let hdr := encodeHeader w.opener
    let files := (w.files.create name).modify name fun f => (f.writeAt 0 hdr).sync
    .ok () { w with
      files, segments := w.segments ++ [{ number := w.nextNumber }]
      activeFd := some name, activeBytes := hdr.length }

/-- `segments_.back().sealed = true`. -/
def sealLast (segments : List Segment) : List Segment :=
  segments.modify (segments.length - 1) fun s => { s with isSealed := true }

def rotate : Outcome Wal Unit :=
  match w.activeFd with
  | none => .error (sysError (ascii "fsync before rotate") (ascii "Bad file descriptor")) w
  | some name =>
    let w := w.modifyFile name File.sync
    { w with activeFd := none, segments := sealLast w.segments }.openNewSegment

/-- `open`, of a log that has not been opened. -/
def «open» (files : Dir) (dir : Bytes) (opener : Opener) (segMax : ℕ) : Outcome Wal Unit :=
  let w : Wal := { files, dir, opener, segMax }
  match (discoverSegments files).getLast? with
  | none => w.openNewSegment
  | some last =>
    let numbers := discoverSegments files
    let w := { w with segments := numbers.mapIdx fun i number =>
      { number, isSealed := i + 1 < numbers.length } }
    match files.find (segmentName last) with
    | none => .error (sysError (ascii "open active WAL segment") noSuchFile) w
    | some f => .ok () { w with
        activeFd := some (segmentName last), activeBytes := f.bytes.length }

/-! ### Replay -/

/-- The scan of a segment: where it is, in the log and in the state of the callback. -/
structure Scan (σ : Type) where
  wal : Wal
  user : σ
  off : ℕ := walHeaderSize

/-- The scan loop from `off` on; it ends at the end of the file, or where no record is read. -/
def scan (onRecord : WalRecord → σ → Outcome σ Unit) (si : ℕ) (bytes : Bytes) :
    ℕ → Scan σ → Outcome (Scan σ) Bool
  | 0, s => .ok false s
  | n + 1, s =>
    if bytes.length ≤ s.off then .ok false s
    else
      match decodeRecord (bytes.drop s.off) with
      | .ok r consumed =>
        match onRecord r s.user with
        | .error e user => .error e { s with user }
        | .ok _ user =>
          scan onRecord si bytes n ⟨s.wal.note si r.lsn, user, s.off + consumed⟩
      | _ => .ok true s

/-- What follows the scan of a segment. -/
def endScan (number : ℕ) (isActive : Bool) (size : ℕ) (torn : Bool) (s : Scan σ) :
    Outcome (Wal × σ) Unit :=
  let w := s.wal
  if torn then
    if ¬ isActive then
      .error (.runtimeError (ascii "WAL corruption in sealed segment: " ++ w.segmentPath number))
        (w, s.user)
    else
      -- cut the torn tail off
      match w.activeFd with
      | none => .error (sysError (ascii "ftruncate torn tail") (ascii "Bad file descriptor"))
          (w, s.user)
      | some name =>
        .ok () ({ w.modifyFile name (fun f => (f.cut s.off).sync) with activeBytes := s.off },
          s.user)
  else if isActive then .ok () ({ w with activeBytes := size }, s.user)
  else .ok () (w, s.user)

/-- One round of `replay`. -/
def replaySegment (onRecord : WalRecord → σ → Outcome σ Unit) (si : ℕ) (w : Wal) (user : σ) :
    Outcome (Wal × σ) Unit :=
  let number := (w.segments.getD si { number := 0 }).number
  match w.files.find (segmentName number) with
  | none => .error (sysError (ascii "open WAL segment for read") noSuchFile) (w, user)
  | some f =>
    match decodeHeader f.bytes with
    | none =>
      .error (.runtimeError (ascii "WAL segment header invalid: " ++ w.segmentPath number))
        (w, user)
    | some h =>
      if h.dim ≠ w.opener.dim.toNat ∨ h.metric ≠ w.opener.metric.toNat then
        .error (.runtimeError (ascii "WAL config mismatch: " ++ w.segmentPath number)) (w, user)
      else
        match scan onRecord si f.bytes f.bytes.length ⟨w, user, walHeaderSize⟩ with
        | .error e s => .error e (s.wal, s.user)
        | .ok torn s => endScan number (si + 1 = w.segments.length) f.bytes.length torn s

/-- The segments `si`, `si + 1`, … -/
def replayFrom (onRecord : WalRecord → σ → Outcome σ Unit) : ℕ → ℕ → Wal → σ →
    Outcome (Wal × σ) Unit
  | 0, _, w, user => .ok () (w, user)
  | n + 1, si, w, user =>
    (replaySegment onRecord si w user).andThen fun _ s => replayFrom onRecord n (si + 1) s.1 s.2

def replay (onRecord : WalRecord → σ → Outcome σ Unit) (user : σ) : Outcome (Wal × σ) Unit :=
  replayFrom onRecord w.segments.length 0 w user

/-- Collect the records. -/
def collect (r : WalRecord) (rs : List WalRecord) : Outcome (List WalRecord) Unit :=
  .ok () (rs ++ [r])

/-! ### Writing -/

/-- `append`, whose `pwrite` may fail. -/
def append (r : WalRecord) (fault : Option Fault) : Outcome Wal Unit :=
  let frame := encodeRecord r
  match w.activeFd with
  | none => .error (sysError (ascii "WAL not open") (ascii "Success")) w
  | some _ =>
    (if walHeaderSize < w.activeBytes ∧ w.segMax < w.activeBytes + frame.length then w.rotate
      else .ok () w).andThen fun _ w =>
        let name := w.activeFd.getD []
        match fault with
        | some fault =>
          .error (sysError (ascii "pwrite WAL") fault.errno)
            (w.modifyFile name fun f => f.writeAt w.activeBytes (frame.take fault.written))
        | none =>
          let w := w.modifyFile name fun f => f.writeAt w.activeBytes frame
          .ok () ({ w with activeBytes := w.activeBytes + frame.length }.note
            (w.segments.length - 1) r.lsn)

/-- The first step of `sync`, under its lock: the file and the highest lsn. -/
def syncCapture : Option (Bytes × ℕ) := w.activeFd.map fun name => (name, w.highestLsn)

/-- The second one, without it: the fsync of the captured file. -/
def syncFile (name : Bytes) : Wal := w.modifyFile name File.sync

/-- The loop of `truncate`: the files it leaves, and the segments. -/
def reclaim (upto : ℕ) : List Segment → Dir → Outcome Dir (List Segment)
  | [], files => .ok [] files
  | [s], files => .ok [s] files
  | s :: t :: rest, files =>
    if s.isSealed ∧ s.lastLsn ≠ 0 ∧ s.lastLsn ≤ upto then
      if (files.find (segmentName s.number)).isNone then
        .error (sysError (ascii "unlink WAL segment") noSuchFile) files
      else reclaim upto (t :: rest) (files.unlink (segmentName s.number))
    else (reclaim upto (t :: rest) files).andThen fun survivors files => .ok (s :: survivors) files

def truncate (upto : ℕ) : Outcome Wal Unit :=
  match reclaim upto w.segments w.files with
  | .error e files => .error e { w with files }
  | .ok survivors files => .ok () { w with files, segments := survivors }

end Wal

end Vdb
