import Mathlib.Data.NNRat.Defs
import RocksdbJs.Lib.BigEndian
import RocksdbJs.Lib.ByteBlock
import RocksdbJs.Lib.Utf8
import RocksdbJs.Spec.LogFormat

/-! The streaming USTAR encoder of `tar.ts`, with a sink that never fails, and a reader of USTAR archives that is
of no file of the source. A `String` here is a well-formed string of the source's. -/

namespace RocksdbJs

open ByteBlock

def BLOCK_SIZE : ℕ := 512

def MAX_NAME_LENGTH : ℕ := 100

def MAX_PREFIX_LENGTH : ℕ := 155

inductive TarError
  | alreadyFinalized
  | previousIncomplete (remaining : ℕ)
  | badSize
  | fieldTooLong (value : String) (length : ℕ)
  | nameDoesNotFit (path : String)
  | overruns (excess : ℕ)
  | cannotFinalize (remaining : ℕ)
deriving DecidableEq, Repr

/-- The mode is any number, by its integer part; the time is finite and not negative. -/
structure TarEntryOptions where
  mode : Option ℤ := none
  mtime : Option ℚ≥0 := none

section Header

/-- `textEncoder.encode`. -/
def textEncode (value : String) : Bytes := Utf8.encode value.toList

/-- `textDecoder.decode`, which drops a byte order mark. -/
def textDecode (bytes : Bytes) : String :=
  match Utf8.decode bytes with
  | [] => ""
  | c :: cs => String.ofList (if c = Char.ofNat 0xfeff then cs else c :: cs)

def writeField (block : Bytes) (value : String) (offset length : ℕ) : Except TarError Bytes :=
  let bytes := textEncode value
  if length < bytes.length then .error (.fieldTooLong value length) else .ok (writeAt block bytes offset)

/-- `value.toString(8).padStart(digits, '0')`, as far as it is copied. -/
def octalDigits (value digits : ℕ) : Bytes :=
  (((Nat.toDigits 8 value).leftpad digits '0').take digits).map fun c => UInt8.ofNat c.toNat

def writeOctal (block : Bytes) (value offset length : ℕ) : Bytes :=
  let digits := length - 1
  if 8 ^ digits - 1 < value then writeAt block (0x80 :: BigEndian.write digits value) offset
  else writeAt block (octalDigits value digits) offset

def writeChecksum (block : Bytes) : Bytes :=
  let block := writeAt block (List.replicate 8 0x20) 148
  let sum := (block.map UInt8.toNat).sum
  let block := writeAt block (octalDigits sum 6) 148
  let block := writeAt block [0] 154
  writeAt block [0x20] 155

/-- The last place at which both parts of the path fit. -/
def bestSplit (encoded : Bytes) : Option ℕ :=
  (List.range encoded.length).foldl
    (fun best i =>
      let nameLength := encoded.length - i - 1
      if encoded[i]? = some 0x2f ∧ 0 < nameLength ∧ nameLength ≤ MAX_NAME_LENGTH ∧ i ≤ MAX_PREFIX_LENGTH then some i
        else best)
    none

structure TarName where
  name : String
  prefixPart : String

def splitTarName (path : String) : Except TarError TarName :=
  let encoded := textEncode path
  if encoded.length ≤ MAX_NAME_LENGTH then .ok ⟨path, ""⟩
  else match bestSplit encoded with
    | none => .error (.nameDoesNotFit path)
    | some best => .ok ⟨textDecode (encoded.drop (best + 1)), textDecode (encoded.take best)⟩

def buildHeader (name : String) (size : ℕ) (mode : ℤ) (mtime : ℚ≥0) : Except TarError Bytes := do
  let block := List.replicate BLOCK_SIZE 0
  let split ← splitTarName name
  let block ← writeField block split.name 0 MAX_NAME_LENGTH
  let block := writeOctal block (mode % 0o10000).toNat 100 8
  let block := writeOctal block 0 108 8
  let block := writeOctal block 0 116 8
  let block := writeOctal block size 124 12
  let block := writeOctal block (mtime.num / mtime.den) 136 12
  let block := writeAt block [0x30] 156
  let block ← writeField block "ustar" 257 6
  let block := writeAt block [0x30] 263
  let block := writeAt block [0x30] 264
  let block ← if split.prefixPart.length > 0 then writeField block split.prefixPart 345 MAX_PREFIX_LENGTH else .ok block
  return writeChecksum block

end Header

/-- The encoder, with what it has given to its sink. -/
structure TarEncoder where
  emitted : Bytes := []
  remaining : ℕ := 0
  pad : ℕ := 0
  finalized : Bool := false
deriving DecidableEq, Repr

namespace TarEncoder

def sink (e : TarEncoder) (chunk : Bytes) : TarEncoder := { e with emitted := e.emitted ++ chunk }

/-- A size of none is not a number, or infinite. -/
def addFile (e : TarEncoder) (name : String) (size : Option ℚ) (options : TarEntryOptions) :
    Except TarError Unit × TarEncoder :=
  if e.finalized then (.error .alreadyFinalized, e)
  else if e.remaining ≠ 0 then (.error (.previousIncomplete e.remaining), e)
  else match size.filter fun q => q.isInt && decide (0 ≤ q) with
    | none => (.error .badSize, e)
    | some q =>
      let size := q.num.toNat
      match buildHeader name size (options.mode.getD 0o644) (options.mtime.getD 0) with
      | .error err => (.error err, e)
      | .ok header =>
        (.ok (), { e with remaining := size, pad := (BLOCK_SIZE - size % BLOCK_SIZE) % BLOCK_SIZE }.sink header)

def writeData (e : TarEncoder) (chunk : Bytes) : Except TarError Unit × TarEncoder :=
  if e.finalized then (.error .alreadyFinalized, e)
  else if chunk.length = 0 then (.ok (), e)
  else if e.remaining < chunk.length then (.error (.overruns (chunk.length - e.remaining)), e)
  else
    let e := { e with remaining := e.remaining - chunk.length }.sink chunk
    if e.remaining = 0 ∧ 0 < e.pad then (.ok (), { e with pad := 0 }.sink (List.replicate e.pad 0)) else (.ok (), e)

def finalize (e : TarEncoder) : Except TarError Unit × TarEncoder :=
  if e.finalized then (.error .alreadyFinalized, e)
  else if e.remaining ≠ 0 then (.error (.cannotFinalize e.remaining), e)
  else (.ok (), { e with finalized := true }.sink (List.replicate (BLOCK_SIZE * 2) 0))

end TarEncoder

/-- A file of an archive. -/
structure TarEntry where
  name : String
  size : ℕ
  data : Bytes
deriving DecidableEq, Repr

section Reader

/-- A field up to its first NUL. -/
def readString (field : Bytes) : Bytes := field.takeWhile (· ≠ 0)

def readOctal (field : Bytes) : ℕ :=
  Nat.ofDigitChars 8 ((field.takeWhile fun b => decide (0x30 ≤ b ∧ b ≤ 0x37)).map fun b => Char.ofNat b.toNat) 0

/-- Octal digits, or GNU base-256 behind a high bit. -/
def readNumber : Bytes → ℕ
  | [] => 0
  | b :: field => if 0x80 ≤ b then BigEndian.value ((b - 0x80) :: field) else readOctal (b :: field)

/-- The sum of the bytes of a header, with its checksum field as spaces. -/
def headerSum (block : Bytes) : ℕ := ((writeAt block (List.replicate 8 0x20) 148).map UInt8.toNat).sum

def readPath (block : Bytes) : Bytes :=
  let name := readString (readAt block 0 100)
  let prefixPart := readString (readAt block 345 155)
  if prefixPart = [] then name else prefixPart ++ 0x2f :: name

/-- The name and the size that a header gives, if its checksum is right. -/
def readTarHeader (block : Bytes) : Option (String × ℕ) :=
  if readOctal (readAt block 148 8) = headerSum block then
    some (String.ofList (Utf8.decode (readPath block)), readNumber (readAt block 124 12))
  else none

/-- The entries up to the first block of zeros, and the archive from there on. -/
def untar : ℕ → Bytes → Option (List TarEntry × Bytes)
  | 0, _ => none
  | fuel + 1, archive =>
    let block := archive.take 512
    let rest := archive.drop 512
    if block.length < 512 then none
    else if block.all (· = 0) then some ([], archive)
    else (readTarHeader block).bind fun header =>
      let padded := header.2 + (512 - header.2 % 512) % 512
      if rest.length < padded then none
      else (untar fuel (rest.drop padded)).map fun r => (⟨header.1, header.2, rest.take header.2⟩ :: r.1, r.2)

end Reader

/-- A call of a method of the encoder. -/
inductive TarCall
  | addFile (name : String) (size : Option ℚ) (options : TarEntryOptions)
  | writeData (chunk : Bytes)
  | addFileData (name : String) (data : Bytes) (options : TarEntryOptions)
  | finalize

/-- The encoder in the hands of its caller, with the entries that were accepted, the last one first. -/
structure TarRun where
  encoder : TarEncoder := {}
  entries : List TarEntry := []

namespace TarRun

def addFile (r : TarRun) (name : String) (size : Option ℚ) (options : TarEntryOptions) :
    Except TarError Unit × TarRun :=
  match r.encoder.addFile name size options with
  | (.ok u, e) => (.ok u, { encoder := e, entries := ⟨name, (size.getD 0).num.toNat, []⟩ :: r.entries })
  | (.error err, e) => (.error err, { r with encoder := e })

def writeData (r : TarRun) (chunk : Bytes) : Except TarError Unit × TarRun :=
  match r.encoder.writeData chunk with
  | (.ok u, e) =>
    (.ok u, { encoder := e, entries := match r.entries with
      | [] => []
      | entry :: entries => { entry with data := entry.data ++ chunk } :: entries })
  | (.error err, e) => (.error err, { r with encoder := e })

def addFileData (r : TarRun) (name : String) (data : Bytes) (options : TarEntryOptions) :
    Except TarError Unit × TarRun :=
  match r.addFile name (some data.length) options with
  | (.ok _, r) => r.writeData data
  | (.error err, r) => (.error err, r)

def finalize (r : TarRun) : Except TarError Unit × TarRun :=
  let e := r.encoder.finalize
  (e.1, { r with encoder := e.2 })

def call (r : TarRun) : TarCall → Except TarError Unit × TarRun
  | .addFile name size options => r.addFile name size options
  | .writeData chunk => r.writeData chunk
  | .addFileData name data options => r.addFileData name data options
  | .finalize => r.finalize

def step (r : TarRun) (c : TarCall) : Option TarRun := some (r.call c).2

end TarRun

end RocksdbJs
