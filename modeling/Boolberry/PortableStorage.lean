import Boolberry.ArchiveRoundTrip
import Mathlib.Data.List.Lex

/-!
# Portable storage

The binary form of `epee::serialization::portable_storage`, in which the peers' requests, the RPC and
the wallet's keys are written: `portable_storage_to_bin.h` and `portable_storage_from_bin.h` with their
guard against recursion.
-/

namespace Boolberry
namespace PortableStorage

open Reading Reading.Reader

inductive PodType
  | int64 | int32 | int16 | int8 | uint64 | uint32 | uint16 | uint8 | double | bool
  deriving DecidableEq

def PodType.size : PodType → ℕ
  | .int64 | .uint64 | .double => 8
  | .int32 | .uint32 => 4
  | .int16 | .uint16 => 2
  | .int8 | .uint8 | .bool => 1

def PodType.code : PodType → UInt8
  | .int64 => 1
  | .int32 => 2
  | .int16 => 3
  | .int8 => 4
  | .uint64 => 5
  | .uint32 => 6
  | .uint16 => 7
  | .uint8 => 8
  | .double => 9
  | .bool => 11

def SERIALIZE_TYPE_STRING : UInt8 := 10
def SERIALIZE_TYPE_OBJECT : UInt8 := 12
def SERIALIZE_TYPE_ARRAY : UInt8 := 13
def SERIALIZE_FLAG_ARRAY : UInt8 := 0x80

/-- What a type code other than those of strings, objects and arrays stands for. -/
def podTypeOf (code : UInt8) : Option PodType :=
  [PodType.int64, .int32, .int16, .int8, .uint64, .uint32, .uint16, .uint8, .double, .bool].find?
    fun t => t.code = code

abbrev Pod (t : PodType) := BitVec (8 * t.size)

mutual

inductive ArrayEntry
  | pods (t : PodType) (l : List (Pod t))
  | strings (l : List Blob)
  | objects (l : List (List (Blob × StorageEntry)))
  | arrays (l : List ArrayEntry)

inductive StorageEntry
  | pod (t : PodType) (v : Pod t)
  | string (s : Blob)
  | object (m_entries : List (Blob × StorageEntry))
  | array (a : ArrayEntry)

end

/-- `section`: a map, here as the list of its pairs in order. -/
abbrev Section := List (Blob × StorageEntry)

/-- The order of `std::string`. -/
def nameKey (name : Blob) : List ℕ := name.map UInt8.toNat

/-- `insert` of a map, which leaves an entry that is there. -/
def mapInsert (name : Blob) (e : StorageEntry) : Section → Section
  | [] => [(name, e)]
  | p :: m =>
      if nameKey name < nameKey p.1 then (name, e) :: p :: m
      else if name = p.1 then p :: m
      else p :: mapInsert name e m

/-- `none` is an exception, here and below. -/
def packVarint (val : ℕ) : Option Blob :=
  if val ≤ 63 then some (podBytes 1 (val <<< 2 ||| 0))
  else if val ≤ 16383 then some (podBytes 2 (val <<< 2 ||| 1))
  else if val ≤ 1073741823 then some (podBytes 4 (val <<< 2 ||| 2))
  else if val ≤ 4611686018427387903 then some (podBytes 8 (val <<< 2 ||| 3))
  else none

def putString (v : Blob) : Option Blob := do
  let n ← packVarint v.length
  some (n ++ v)

/-- The head of an array: its type and its size. -/
def packArrayHead (code : UInt8) (size : ℕ) : Option Blob := do
  let n ← packVarint size
  some ((code ||| SERIALIZE_FLAG_ARRAY) :: n)

def packStrings : List Blob → Option Blob
  | [] => some []
  | s :: l => do
      let b ← putString s
      let r ← packStrings l
      some (b ++ r)

mutual

def packArrayEntry : ArrayEntry → Option Blob
  | .pods t l => do
      let h ← packArrayHead t.code l.length
      some (h ++ l.flatMap fun x => podBytes t.size x.toNat)
  | .strings l => do
      let h ← packArrayHead SERIALIZE_TYPE_STRING l.length
      let r ← packStrings l
      some (h ++ r)
  | .objects l => do
      let h ← packArrayHead SERIALIZE_TYPE_OBJECT l.length
      let r ← packSections l
      some (h ++ r)
  | .arrays l => do
      let h ← packArrayHead SERIALIZE_TYPE_ARRAY l.length
      let r ← packArrays l
      some (h ++ r)

def packStorageEntry : StorageEntry → Option Blob
  | .pod t v => some (t.code :: podBytes t.size v.toNat)
  | .string s => do
      let b ← putString s
      some (SERIALIZE_TYPE_STRING :: b)
  | .object m => do
      let n ← packVarint m.length
      let r ← packEntries m
      some (SERIALIZE_TYPE_OBJECT :: (n ++ r))
  | .array a => packArrayEntry a

/-- The loop of `pack_entry_to_buff` over the pairs of a section. -/
def packEntries : List (Blob × StorageEntry) → Option Blob
  | [] => some []
  | (name, e) :: m =>
      if name.length < 255 then do
        let b ← packStorageEntry e
        let r ← packEntries m
        some (UInt8.ofNat name.length :: (name ++ (b ++ r)))
      else none

def packSections : List (List (Blob × StorageEntry)) → Option Blob
  | [] => some []
  | m :: l => do
      let n ← packVarint m.length
      let b ← packEntries m
      let r ← packSections l
      some (n ++ b ++ r)

def packArrays : List ArrayEntry → Option Blob
  | [] => some []
  | a :: l => do
      let b ← packArrayEntry a
      let r ← packArrays l
      some (b ++ r)

end

def packSection (m : Section) : Option Blob := do
  let n ← packVarint m.length
  let r ← packEntries m
  some (n ++ r)

def PORTABLE_STORAGE_SIGNATUREA : ℕ := 0x01011101
def PORTABLE_STORAGE_SIGNATUREB : ℕ := 0x01020101
def PORTABLE_STORAGE_FORMAT_VER : UInt8 := 1

def storeToBinary (root : Section) : Option Blob := do
  let b ← packSection root
  some (podBytes 4 PORTABLE_STORAGE_SIGNATUREA ++ podBytes 4 PORTABLE_STORAGE_SIGNATUREB ++
    [PORTABLE_STORAGE_FORMAT_VER] ++ b)

/-- `RECURSION_LIMITATION`: `room` is how many calls may still be nested, and the body may nest one
less. -/
def guarded {α : Type} (body : ℕ → Reader UInt8 α) : ℕ → Reader UInt8 α
  | 0 => Reader.fail
  | room + 1 => body room

/-- `read(void*, size_t)`. -/
def readRaw (count : ℕ) : ℕ → Reader UInt8 Blob :=
  guarded fun _ l => if l.length < count then none else some (l.take count, l.drop count)

/-- `read(t_pod_type&)` of `n` bytes. -/
def readPod (n : ℕ) : ℕ → Reader UInt8 (BitVec (8 * n)) :=
  guarded fun room => do
    let b ← readRaw n room
    return BitVec.ofNat (8 * n) (podValue b)

/-- `t_type read()` of a pod type. -/
def readValue (n : ℕ) : ℕ → Reader UInt8 (BitVec (8 * n)) := guarded (readPod n)

def readByte (room : ℕ) : Reader UInt8 UInt8 := do
  let v ← readPod 1 room
  return UInt8.ofNat v.toNat

def readSecName : ℕ → Reader UInt8 Blob :=
  guarded fun room => do
    let len ← readByte room
    readRaw len.toNat room

def readSize (n room : ℕ) : Reader UInt8 ℕ := do
  let v ← readValue n room
  return v.toNat >>> 2

def readVarint : ℕ → Reader UInt8 ℕ :=
  guarded fun room l =>
    match l with
    | [] => none
    | c :: _ =>
        if c &&& 0x03 = 0 then readSize 1 room l
        else if c &&& 0x03 = 1 then readSize 2 room l
        else if c &&& 0x03 = 2 then readSize 4 room l
        else readSize 8 room l

def MAX_STRING_LEN_POSSIBLE : ℕ := 2000000000

/-- `read(std::string&)`. -/
def readString : ℕ → Reader UInt8 Blob :=
  guarded fun room => do
    let len ← readVarint room
    fun l =>
      if MAX_STRING_LEN_POSSIBLE ≤ len then none
      else if l.length < len then none
      else some (l.take len, l.drop len)

/-- `read<std::string>()`. -/
def readStringValue : ℕ → Reader UInt8 Blob := guarded readString

/-- `read_ae` with `read<type_name>()` for the elements. -/
def readAe {α : Type} (value : ℕ → Reader UInt8 α) : ℕ → Reader UInt8 (List α) :=
  guarded fun room => do
    let size ← readVarint room
    (value room).times size

/-- The loop over the entries of a section. -/
def readEntries (name : Reader UInt8 Blob) (entry : Reader UInt8 StorageEntry) :
    ℕ → Section → Reader UInt8 Section
  | 0, m => pure m
  | k + 1, m => do
      let n ← name
      let e ← entry
      readEntries name entry k (mapInsert n e m)

mutual

/-- `read(section&)`. -/
def readSection : ℕ → Reader UInt8 Section
  | 0 => Reader.fail
  | room + 1 => do
      let count ← readVarint room
      readEntries (readSecName room) (loadStorageEntry room) count []

def loadStorageEntry : ℕ → Reader UInt8 StorageEntry
  | 0 => Reader.fail
  | room + 1 => do
      let entType ← readByte room
      if entType &&& SERIALIZE_FLAG_ARRAY ≠ 0 then do
        let a ← loadStorageArrayEntry room entType
        return .array a
      else
        match podTypeOf entType with
        | some t => do
            let v ← guarded (readPod t.size) room
            return .pod t v
        | none =>
            if entType = SERIALIZE_TYPE_STRING then do
              let s ← guarded readStringValue room
              return .string s
            else if entType = SERIALIZE_TYPE_OBJECT then readSeSection room
            else if entType = SERIALIZE_TYPE_ARRAY then readSeArray room
            else Reader.fail

/-- `read_se<section>`. -/
def readSeSection : ℕ → Reader UInt8 StorageEntry
  | 0 => Reader.fail
  | room + 1 => do
      let m ← readSection room
      return .object m

/-- `read_se<array_entry>`. -/
def readSeArray : ℕ → Reader UInt8 StorageEntry
  | 0 => Reader.fail
  | room + 1 => do
      let entType ← readByte room
      if entType &&& SERIALIZE_FLAG_ARRAY ≠ 0 then do
        let a ← loadStorageArrayEntry room entType
        return .array a
      else Reader.fail

/-- For arrays of arrays `read<array_entry>()` copies raw bytes over the variant, which is undefined:
only the empty one is read. -/
def loadStorageArrayEntry : ℕ → UInt8 → Reader UInt8 ArrayEntry
  | 0, _ => Reader.fail
  | room + 1, type =>
      let type := type &&& ~~~SERIALIZE_FLAG_ARRAY
      match podTypeOf type with
      | some t => do
          let l ← readAe (readValue t.size) room
          return .pods t l
      | none =>
          if type = SERIALIZE_TYPE_STRING then do
            let l ← readAe readStringValue room
            return .strings l
          else if type = SERIALIZE_TYPE_OBJECT then readAeSections room
          else if type = SERIALIZE_TYPE_ARRAY then do
            let l ← readAe (fun _ => (Reader.fail : Reader UInt8 ArrayEntry)) room
            return .arrays l
          else Reader.fail

/-- `read_ae<section>`. -/
def readAeSections : ℕ → Reader UInt8 ArrayEntry
  | 0 => Reader.fail
  | room + 1 => do
      let size ← readVarint room
      let l ← (readSectionValue room).times size
      return .objects l

/-- `read<section>()`. -/
def readSectionValue : ℕ → Reader UInt8 Section
  | 0 => Reader.fail
  | room + 1 => readSection room

end

/-- `EPEE_PORTABLE_STORAGE_RECURSION_LIMIT_INTERNAL`; the count of nested calls stays below it. -/
def RECURSION_LIMIT : ℕ := 100

def loadFromBinary (source : Blob) : Option Section :=
  if source.length < 9 then none
  else if podValue (source.take 4) ≠ PORTABLE_STORAGE_SIGNATUREA ∨
      podValue ((source.drop 4).take 4) ≠ PORTABLE_STORAGE_SIGNATUREB then none
  else if (source.drop 8).headD 0 ≠ PORTABLE_STORAGE_FORMAT_VER then none
  else if source.length - 9 = 0 then none
  else ((readSection (RECURSION_LIMIT - 1)) (source.drop 9)).map Prod.fst

end PortableStorage
end Boolberry
