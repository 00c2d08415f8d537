import Mathlib.Data.Nat.Digits.Defs
import NaiveFileSystem.Cache.Client

/-!
# The text of a directory

A directory is a text of tokens, each followed by a blank: for every entry its
encoded name and its inum in decimal. Names are encoded by two letters a byte, by
the quotient and the remainder of a signed `char`, and read back by a stream.
-/

namespace NaiveFileSystem.Yfs

open Cache

abbrev Inum := UInt64

/-- `isspace` in the C locale. -/
def isSpace (byte : UInt8) : Bool := byte = 32 ∨ (9 ≤ byte ∧ byte ≤ 13)

def isDigit (byte : UInt8) : Bool := 48 ≤ byte ∧ byte ≤ 57

/-- A `char` is signed: the value of `code[i]` as an `int`. -/
def charToInt (byte : UInt8) : ℤ := byte.toInt8.toInt

/-- An `int` narrowed to a `char`. -/
def intToChar (value : ℤ) : UInt8 := (Int8.ofInt value).toUInt8

def encode (code : Bytes) : Bytes :=
  code.flatMap fun byte =>
    [intToChar (97 + (charToInt byte).tdiv 16), intToChar (97 + (charToInt byte).tmod 16)]

/-- `code[i + 1]` is the terminating zero behind an odd length. -/
def uncode : Bytes → Bytes
  | [] => []
  | [high] => [intToChar ((charToInt high - 97) * 16 + 0 - 97)]
  | high :: low :: rest =>
    intToChar ((charToInt high - 97) * 16 + charToInt low - 97) :: uncode rest

/-- `ost << inum`. -/
def filename (inum : Inum) : Bytes :=
  if inum = 0 then [48] else (Nat.digits 10 inum.toNat).reverse.map fun digit => 48 + .ofNat digit

/-- `ist >> finum`; the variable stays as it was if there is nothing but space. -/
def n2i (finum : Inum) (n : Bytes) : Inum :=
  match n.dropWhile isSpace with
  | [] => finum
  | first :: rest =>
    let digits := if first = 43 ∨ first = 45 then rest else first :: rest
    let value := (digits.takeWhile isDigit).foldl (fun acc digit => acc * 10 + (digit.toNat - 48)) 0
    if 2 ^ 64 ≤ value then .ofNat (2 ^ 64 - 1)
    else if first = 45 then 0 - .ofNat value
    else .ofNat value

/-- What a stream has left, `none` once an extraction failed. -/
abbrev Stream := Option Bytes

/-- `ss >> token`, which skips space and leaves the token alone if nothing is left. -/
def extract (ss : Stream) (token : Bytes) : Stream × Bytes :=
  match ss with
  | none => (none, token)
  | some left =>
    match left.dropWhile isSpace with
    | [] => (none, token)
    | first :: rest =>
      (some ((first :: rest).dropWhile (!isSpace ·)), (first :: rest).takeWhile (!isSpace ·))

/-- The tokens that the passes of a loop over `buf` read. The loops of `find`,
`readdir` and `unlink` all advance `i` by the lengths of both tokens and 2. -/
def passes (size i : ℕ) (ss : Stream) (fileName inode : Bytes) : List (Bytes × Bytes) :=
  if i < size then
    let name := extract ss fileName
    let number := extract name.1 inode
    (name.2, number.2) ::
      passes size (i + (name.2.length + number.2.length + 2)) number.1 name.2 number.2
  else []
  termination_by size - i

/-- All passes of a loop over `buf`. -/
def tokens (buf : Bytes) : List (Bytes × Bytes) := passes buf.length 0 (some buf) [] []

end NaiveFileSystem.Yfs
