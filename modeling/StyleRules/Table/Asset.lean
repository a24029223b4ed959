import StyleRules.Table.Pool
import StyleRules.Table.Trie

/-!
# Rule tables as bytes

An asset is a header of 16 bytes (the magic `RSTR`, a version, two reserved bytes and the numbers of
nodes) followed by the nodes of the rename trie and then those of the replace trie. Reading checks
the header and the total length; what the nodes hold is checked at each lookup.
-/

namespace StyleRules

structure Table where
  rename : Table.Trie
  replace : Table.Trie

namespace Table

def empty : Table := ⟨.empty, .empty⟩

def isEmpty (table : Table) : Bool := table.rename.size == 0 && table.replace.size == 0

def magic : Bytes := [0x52, 0x53, 0x54, 0x52]

def formatVersion : UInt16 := 1

def headerLength : Nat := 16

/-- Why bytes are no rule table; the first failing check counts. -/
inductive ReadError where
  | tooShort
  | badMagic
  | unsupportedVersion (version : UInt16)
  | truncated (expected actual : Nat)
  deriving DecidableEq, Repr

namespace ReadError

def code : ReadError → Nat
  | tooShort => 1
  | badMagic => 2
  | unsupportedVersion _ => 3
  | truncated _ _ => 4

def message : ReadError → String
  | tooShort => "rule table is shorter than its 16-byte header"
  | badMagic => "rule table does not start with the RSTR magic"
  | unsupportedVersion version =>
    "unsupported rule table version " ++ toString version.toNat ++ " (expected 1)"
  | truncated expected actual =>
    "rule table truncated: header promises " ++ toString expected ++ " bytes, found " ++
      toString actual

end ReadError

/-! ## Writing -/

def headerBytes (renameCount replaceCount : UInt32) : Bytes :=
  magic ++ [formatVersion.toUInt8, (formatVersion >>> 8).toUInt8, 0, 0] ++
    Word.bytes renameCount ++ Word.bytes replaceCount

def assetBytes (rename replace : Pool) : Except BuildError Bytes :=
  if rename.nodes.size < Word.count ∧ replace.nodes.size < Word.count then
    .ok (headerBytes (UInt32.ofNat rename.nodes.size) (UInt32.ofNat replace.nodes.size) ++
      rename.bytes ++ replace.bytes)
  else .error .tooManyNodes

/-! ## Reading -/

/-- The half word at byte offset `i`; missing bytes count as `0`. -/
def halfAt (bytes : Bytes) (i : Nat) : UInt16 :=
  (bytes.getD i 0).toUInt16 ||| ((bytes.getD (i + 1) 0).toUInt16 <<< 8)

/-- The word at byte offset `i`; missing bytes count as `0`. -/
def wordAt (bytes : Bytes) (i : Nat) : UInt32 :=
  Word.ofBytes (bytes.getD i 0) (bytes.getD (i + 1) 0) (bytes.getD (i + 2) 0)
    (bytes.getD (i + 3) 0)

/-- The table that an asset holds. Bytes after the last promised node are ignored. -/
def read (bytes : Bytes) : Except ReadError Table :=
  if bytes.length < headerLength then .error .tooShort
  else if bytes.take 4 ≠ magic then .error .badMagic
  else
    let version := halfAt bytes 4
    if version ≠ formatVersion then .error (.unsupportedVersion version)
    else
      let renameLength := (wordAt bytes 8).toNat * Node.byteCount
      let replaceLength := (wordAt bytes 12).toNat * Node.byteCount
      let expected := headerLength + renameLength + replaceLength
      if bytes.length < expected then .error (.truncated expected bytes.length)
      else
        let nodes := bytes.drop headerLength
        .ok ⟨.ofBytes (nodes.take renameLength),
          .ofBytes ((nodes.drop renameLength).take replaceLength)⟩

/-- The table that an asset holds, or the table without rules when the asset is rejected. -/
def ofBytes (bytes : Bytes) : Table :=
  match read bytes with
  | .ok table => table
  | .error _ => empty

end Table

end StyleRules
