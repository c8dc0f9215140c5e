import Skaidb.Base.Framing
import Skaidb.Storage.Disk

namespace Skaidb.Storage.WalFormat

open Skaidb.Base

-- The log at the level of bytes: what the record-level files of `Disk` stand for.

inductive StorageError where
  | corruption (offset : Nat) (detail : String)
  | crypto (message : String)
  | unexpectedEof
  deriving DecidableEq, Repr

abbrev Result := Except StorageError

section Checksum

-- The mask is all ones when the low bit is set.
def crcBit (crc : UInt32) : UInt32 := (crc >>> 1) ^^^ (0xEDB88320 &&& (0 - (crc &&& 1)))

def crcByte (crc : UInt32) (byte : UInt8) : UInt32 :=
  (List.range 8).foldl (fun crc _ => crcBit crc) (crc ^^^ byte.toUInt32)

def crc32 (data : Bytes) : UInt32 := ~~~(data.foldl crcByte 0xFFFFFFFF)

example : crc32 [0x31, 0x32, 0x33, 0x34, 0x35, 0x36, 0x37, 0x38, 0x39] = 0xCBF43926 := by
  decide +kernel

end Checksum

def tagLen : Nat := 16

def walWrappedDekLen : Nat := 12 + 32 + 16

def walEncHeaderLen : Nat := 8 + 2 + walWrappedDekLen

-- The at-rest primitives, with what the log relies on. Random data keys are
-- numbered by the draw that made them.
structure Cipher where
  Kek : Type
  Dek : Type
  wrapNewDek : Kek → (draw : Nat) → Dek × Bytes
  unwrapDek : Kek → Bytes → Result Dek
  sealAt : Dek → (offset : Nat) → Bytes → Result Bytes
  openAt : Dek → (offset : Nat) → Bytes → Result Bytes
  length_wrapped : ∀ kek draw, (wrapNewDek kek draw).2.length = walWrappedDekLen
  unwrap_wrapped : ∀ kek draw,
    unwrapDek kek (wrapNewDek kek draw).2 = .ok (wrapNewDek kek draw).1
  length_unwrapped : ∀ {kek wrapped dek},
    unwrapDek kek wrapped = .ok dek → wrapped.length = walWrappedDekLen
  open_seal : ∀ {dek offset payload body},
    sealAt dek offset payload = .ok body → openAt dek offset body = .ok payload
  length_seal : ∀ {dek offset payload body},
    sealAt dek offset payload = .ok body → body.length = payload.length + tagLen
  length_open : ∀ {dek offset payload body},
    openAt dek offset body = .ok payload → body.length = payload.length + tagLen
  -- The cipher takes any payload that a 32-bit length can describe.
  seal_short : ∀ dek offset payload, payload.length < 2 ^ 32 →
    ∃ body, sealAt dek offset payload = .ok body

def clearCipher : Cipher where
  Kek := Unit
  Dek := UInt8
  wrapNewDek _ draw := (UInt8.ofNat draw, UInt8.ofNat draw :: List.replicate 59 0)
  unwrapDek _ wrapped :=
    if wrapped.length = walWrappedDekLen then .ok (wrapped.headD 0)
    else .error (.crypto "unwrap dek (wrong KEK or corrupt header)")
  sealAt dek _ payload := .ok (payload ++ List.replicate tagLen dek)
  openAt _ _ body :=
    if body.length < tagLen then .error (.crypto "ciphertext shorter than tag")
    else .ok (body.take (body.length - tagLen))
  length_wrapped _ _ := rfl
  unwrap_wrapped _ _ := rfl
  length_unwrapped {kek wrapped dek} h := by
    split at h
    case isTrue hlen => exact hlen
    case isFalse => cases h
  open_seal h := by
    cases h
    simp
  length_seal h := by
    cases h
    simp
  length_open {dek offset payload body} h := by
    split at h
    case isTrue => cases h
    case isFalse hlen =>
      cases h
      simp
      omega
  seal_short _ _ _ _ := ⟨_, rfl⟩

section Records

def opPut : UInt8 := 0

def opDelete : UInt8 := 1

def opByte : VersionValue → UInt8
  | .put _ => opPut
  | .delete => opDelete

-- Lengths are cast to `u32`, so one of 2^32 or more wraps.
def encodeValue : VersionValue → Bytes
  | .put value => leBytes 4 value.length ++ value
  | .delete => []

def encodePayload (r : WalRecord) : Bytes :=
  opByte r.op :: (r.hlc.toBytes ++ (leBytes 4 r.key.length ++ (r.key ++ encodeValue r.op)))

def encodeFrame (body : Bytes) : Bytes :=
  leBytes 4 body.length ++ (body ++ leBytes 4 (crc32 body).toNat)

def take (offset n : Nat) (p : Bytes) : Result (Bytes × Bytes) :=
  if n ≤ p.length then .ok (p.take n, p.drop n)
  else .error (.corruption offset "payload too short")

-- Bytes after the record are not looked at.
def decodePayload (p : Bytes) (offset : Nat) : Result WalRecord := do
  let (op, p) ← take offset 1 p
  let (hlc, p) ← take offset 12 p
  let (keyLen, p) ← take offset 4 p
  let (key, p) ← take offset (leNat keyLen) p
  if op = [opPut] then
    let (valLen, p) ← take offset 4 p
    let (val, _) ← take offset (leNat valLen) p
    return ⟨Hlc.fromBytes hlc, key, .put val⟩
  else if op = [opDelete] then
    return ⟨Hlc.fromBytes hlc, key, .delete⟩
  else
    throw (.corruption offset "unknown op byte")

end Records

section Replay

def readExact (n : Nat) (xs : Bytes) : Option (Bytes × Bytes) :=
  if n ≤ xs.length then some (xs.take n, xs.drop n) else none

-- The body of the frame at the front. A short read, a zero length (space that was
-- reserved and not written) and a wrong checksum all end the log.
def readFrame (xs : Bytes) : Option Bytes := do
  let (lenBuf, xs) ← readExact 4 xs
  if leNat lenBuf = 0 then none
  else
    let (frame, xs) ← readExact (leNat lenBuf) xs
    let (crcBuf, _) ← readExact 4 xs
    if leNat crcBuf = (crc32 frame).toNat then some frame else none

variable {c : Cipher}

def openBody (dek : Option c.Dek) (offset : Nat) (frame : Bytes) : Result Bytes :=
  match dek with
  | some dek => c.openAt dek offset frame
  | none => .ok frame

-- The records from `goodLen` on and where they end. A frame whose checksum is
-- right but whose seal or payload is not is an error.
def replay (dek : Option c.Dek) : (fuel : Nat) → Nat → Bytes → Result (List WalRecord × Nat)
  | 0, goodLen, _ => .ok ([], goodLen)
  | fuel + 1, goodLen, rest =>
    match readFrame rest with
    | none => .ok ([], goodLen)
    | some frame => do
        let payload ← openBody dek goodLen frame
        let record ← decodePayload payload goodLen
        let (records, len) ← replay dek fuel (goodLen + (4 + frame.length + 4))
          (rest.drop (4 + frame.length + 4))
        return (record :: records, len)

def walEncMagic : Bytes := [0x73, 0x6b, 0x61, 0x77, 0xEE, 0x45, 0x57, 0x4c]

def readEncHeader (file : Bytes) : Result (Option (Bytes × Nat)) :=
  if file.length < walEncHeaderLen then .ok none
  else if file.take 8 ≠ walEncMagic then .ok none
  else if file.length < 10 + leNat ((file.drop 8).take 2) then .error .unexpectedEof
  else .ok (some ((file.drop 10).take (leNat ((file.drop 8).take 2)),
    10 + leNat ((file.drop 8).take 2)))

def recoverFile (kek : Option c.Kek) (file : Bytes) :
    Result (List WalRecord × Nat × Option c.Dek) := do
  match ← readEncHeader file with
  | some (wrapped, headerLen) =>
    match kek with
    | none => throw (.crypto "WAL is encrypted but no keyfile is configured")
    | some kek =>
      let dek ← c.unwrapDek kek wrapped
      let (records, goodLen) ← replay (some dek) file.length headerLen (file.drop headerLen)
      return (records, goodLen, some dek)
  | none =>
    let (records, goodLen) ← replay (c := c) none file.length 0 file
    return (records, goodLen, none)

end Replay

section Files

-- A write past the end leaves zeros in between.
def writeAllAt (file buf : Bytes) (offset : Nat) : Bytes :=
  file.take offset ++ (List.replicate (offset - file.length) 0 ++
    (buf ++ file.drop (offset + buf.length)))

def setLen (file : Bytes) (len : Nat) : Bytes :=
  file.take len ++ List.replicate (len - file.length) 0

def roundUp (len chunk : Nat) : Nat := (len + (chunk - 1)) / chunk * chunk

structure LogDir where
  active : Option Bytes
  segments : OrdMap Nat Bytes
  deriving DecidableEq

structure WalOptions (c : Cipher) where
  preallocChunk : Nat
  kek : Option c.Kek
  encryptNew : Bool

structure WalCrypto (c : Cipher) where
  kek : c.Kek
  dek : c.Dek
  header : Bytes

def encHeader (wrapped : Bytes) : Bytes := walEncMagic ++ (leBytes 2 wrapped.length ++ wrapped)

def WalCrypto.fresh {c : Cipher} (kek : c.Kek) (draw : Nat) : WalCrypto c :=
  ⟨kek, (c.wrapNewDek kek draw).1, encHeader (c.wrapNewDek kek draw).2⟩

structure Wal (c : Cipher) where
  file : Bytes
  segments : OrdMap Nat Bytes
  writeOffset : Nat
  synced : Nat
  generation : Nat
  preallocChunk : Nat
  allocated : Nat
  crypto : Option (WalCrypto c)

structure WalCommit where
  generation : Nat
  offset : Nat
  deriving DecidableEq

namespace Wal

variable {c : Cipher}

def dir (w : Wal c) : LogDir := ⟨some w.file, w.segments⟩

def recoverSegments (kek : Option c.Kek) : List Bytes → Result (List WalRecord)
  | [] => .ok []
  | file :: files => do
      let (records, _, _) ← recoverFile kek file
      let rest ← recoverSegments kek files
      return records ++ rest

-- The encryption state of the active file, the file after that and where appends go on: a
-- header is kept, an empty file gets one when encryption is on, any other stays plain.
def resume (opts : WalOptions c) (draw : Nat) (file : Bytes) (goodLen : Nat) (dek : Option c.Dek) :
    Result (Option (WalCrypto c) × Bytes × Nat) := do
  match dek, opts.kek with
  | some dek, some kek =>
    match ← readEncHeader file with
    | some (wrapped, _) => return (some ⟨kek, dek, encHeader wrapped⟩, file, goodLen)
    | none => return (none, file, goodLen)
  | some _, none => return (none, file, goodLen)
  | none, kek =>
    if goodLen = 0 ∧ opts.encryptNew then
      match kek with
      | none => throw (.crypto "at-rest is on but no keyfile is configured")
      | some kek =>
        let fresh := WalCrypto.fresh kek draw
        return (some fresh, writeAllAt file fresh.header 0, walEncHeaderLen)
    else
      return (none, file, goodLen)

-- Space is reserved a chunk ahead; a chunk of zero reserves none.
def reserve (chunk goodLen : Nat) (file : Bytes) : Bytes :=
  if 0 < chunk ∧ file.length < roundUp (max goodLen 1) chunk then
    setLen file (roundUp (max goodLen 1) chunk)
  else file

end Wal

def Wal.open {c : Cipher} (opts : WalOptions c) (draw : Nat) (dir : LogDir) :
    Result (Wal c × List WalRecord) := do
  let file := dir.active.getD []
  let sealedRecords ← Wal.recoverSegments opts.kek (dir.segments.entries.map Prod.snd)
  let (activeRecords, goodLen, dek) ← recoverFile opts.kek file
  let (crypto, file, goodLen) ← Wal.resume opts draw file goodLen dek
  let file := Wal.reserve opts.preallocChunk goodLen file
  return (⟨file, dir.segments, goodLen, goodLen, 0, opts.preallocChunk, file.length, crypto⟩,
    sealedRecords ++ activeRecords)

namespace Wal

variable {c : Cipher}

def frameBody (w : Wal c) (payload : Bytes) : Result Bytes :=
  match w.crypto with
  | some crypto => c.sealAt crypto.dek w.writeOffset payload
  | none => .ok payload

-- The file grows by whole chunks when the append ends past what is allocated.
def allocate (w : Wal c) (finish : Nat) : Wal c :=
  if 0 < w.preallocChunk ∧ w.allocated < finish then
    { w with
      file := setLen w.file (roundUp finish w.preallocChunk)
      allocated := roundUp finish w.preallocChunk }
  else w

def append (w : Wal c) (r : WalRecord) : Result (Wal c × WalCommit) := do
  let body ← w.frameBody (encodePayload r)
  let frame := encodeFrame body
  let finish := w.writeOffset + frame.length
  let w := w.allocate finish
  return ({ w with file := writeAllAt w.file frame w.writeOffset, writeOffset := finish },
    ⟨w.generation, finish⟩)

def commitSync (w : Wal c) (commit : WalCommit) : Wal c :=
  if w.generation ≠ commit.generation ∨ commit.offset ≤ w.synced then w
  else { w with synced := w.writeOffset }

-- The header of a file that starts afresh, with the key it is for: a fresh one
-- when the log is encrypted.
def restart (w : Wal c) (draw : Nat) : Option (WalCrypto c) × Bytes :=
  match w.crypto with
  | some crypto => (some (.fresh crypto.kek draw), (WalCrypto.fresh crypto.kek draw).header)
  | none => (none, [])

def rotate (w : Wal c) (seq draw : Nat) : Wal c :=
  let (crypto, header) := w.restart draw
  let file := if 0 < w.preallocChunk then setLen header (roundUp (max header.length 1) w.preallocChunk)
    else header
  { w with
    file
    segments := w.segments.insert seq w.file
    writeOffset := header.length
    synced := header.length
    generation := w.generation + 1
    allocated := if 0 < w.preallocChunk then roundUp (max header.length 1) w.preallocChunk else 0
    crypto }

def truncate (w : Wal c) (draw : Nat) : Wal c :=
  let (crypto, header) := w.restart draw
  let alloc := max (roundUp (max header.length 1) (max w.preallocChunk 1)) w.preallocChunk
  { w with
    file := setLen header alloc
    writeOffset := header.length
    synced := header.length
    generation := w.generation + 1
    allocated := alloc
    crypto }

end Wal

end Files

end Skaidb.Storage.WalFormat
